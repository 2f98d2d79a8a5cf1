import K439.Sched.Places

/-!
# Runs of the scheduler

Each operation keeps `Inv`, so it holds in every state of every run. `processes_placed` says what
it means for the started processes.
-/

namespace K439.Sched

open Machine

variable {m m' : Machine} {p me : Pid} {q : WaitQueue} {target : UInt32}

namespace Inv

theorem switch (I : Inv m) (hc : m.current = none) : Inv (m.switch none) := by
  unfold Machine.switch
  split
  next hq =>
    split
    next idle hi => exact I.dispatch_idle hc hi
    next hi =>
      have heq : m.newIdleProcess.current = none := by
        rw [Machine.newIdleProcess, start, makeReady_eq]
        exact hc
      exact (I.newIdleProcess hi).dispatch_idle heq
        (by rw [Machine.newIdleProcess, start, makeReady_eq])
  next next readyQueue hq => exact I.dispatch_head hc hq

/-- The process that yields does not matter to the one that is dispatched. -/
theorem switch_eq (hc : m.current = some me) :
    m.switch (some me) = { m with current := none }.switch none := by
  have hd (m₁ m₂ : Machine) (p : Pid) (h₁ : m₁.current = some me)
      (h₂ : m₂ = { m₁ with current := none }) :
        m₁.dispatch p (some me) = m₂.dispatch p none := by
    subst h₂
    unfold dispatch
    by_cases hp : p = me
    · simp [hp, h₁]
    · simp [hp]
  unfold Machine.switch
  dsimp only
  split
  · split
    · exact hd _ _ _ hc rfl
    · refine hd _ _ _ ?_ ?_ <;> simp only [Machine.newIdleProcess, start, makeReady_eq]
      exact hc
  · exact hd _ _ _ hc rfl

end Inv

theorem count_go (ts : List Timer) (target : UInt32) (h : ∃ t ∈ ts, t.target = target)
    (target' : UInt32) (y : Pid) :
    (((addTail.go p target ts).filter (·.target = target')).flatMap (·.waiting)).count y =
      ((ts.filter (·.target = target')).flatMap (·.waiting)).count y +
        (if target' = target ∧ y = p then 1 else 0) := by
  induction ts with
  | nil => obtain ⟨_, h, _⟩ := h; cases h
  | cons t ts ih =>
    rw [addTail.go]
    split
    next ht =>
      subst ht
      by_cases hy : y = p
      all_goals
        by_cases h' : target' = t.target
        all_goals simp [hy, h', eq_comm, Ne.symm]
      omega
    next ht =>
      have h : ∃ t ∈ ts, t.target = target := by
        obtain ⟨t', hm, h'⟩ := h
        rcases List.mem_cons.mp hm with rfl | hm
        exacts [(ht h').elim, ⟨t', hm, h'⟩]
      have := ih h
      by_cases h' : t.target = target' <;> simp_all

theorem go_targets (ts : List Timer) (target : UInt32) :
    (addTail.go p target ts).map (·.target) = ts.map (·.target) := by
  induction ts with
  | nil => rfl
  | cons t ts ih =>
    rw [addTail.go]
    split
    · rfl
    · rw [List.map_cons, List.map_cons, ih]

theorem count_addTail (hq : q.Exists m) (q' : WaitQueue) (y : Pid) :
    ((m.addTail p q).waiting q').count y =
      (m.waiting q').count y + (if q' = q ∧ y = p then 1 else 0) := by
  cases q with
  | sem s =>
    cases q' with
    | sem s' =>
      by_cases hs : s' = s
      · subst hs
        by_cases hy : y = p <;> simp [waiting, addTail, setSem, hy, Ne.symm]
      · simp [waiting, addTail, setSem, hs]
    | timer target => simp [waiting, addTail, setSem]
  | timer target =>
    cases q' with
    | sem s => simp [waiting, addTail]
    | timer target' => simpa [waiting, addTail] using count_go m.timers target hq target' y

theorem addTail_eq : ∃ sems timers, m.addTail p q = { m with sems, timers } ∧
    timers.map (·.target) = m.timers.map (·.target) := by
  cases q with
  | sem s => exact ⟨_, m.timers, rfl, rfl⟩
  | timer target => exact ⟨m.sems, _, rfl, go_targets m.timers target⟩

namespace Inv

theorem current_started (I : Inv m) (hc : m.current = some me) : me ∈ m.started :=
  I.started (c := .current) (by simp) (by simp [cnt, hc])

/-- The current process blocks. -/
theorem block (I : Inv m) (hc : m.current = some me) (hq : q.Exists m) :
    Inv { { m with state := Function.update m.state me .BLOCKED }.addTail me q with
      current := none } := by
  obtain ⟨sems, timers, heq, ht⟩ :=
    addTail_eq (m := { m with state := Function.update m.state me .BLOCKED }) (p := me) (q := q)
  have hcount := count_addTail (p := me)
    (m := { m with state := Function.update m.state me .BLOCKED }) (q := q)
      (by cases q <;> exact hq)
  rw [heq] at hcount ⊢
  have hmove : ∀ c y, m.NotIdle y → Machine.cnt
      { m with sems, timers, current := none, state := Function.update m.state me .BLOCKED } c y +
        (if c = .current ∧ y = me then 1 else 0) =
      m.cnt c y + (if c = .wait q ∧ y = me then 1 else 0) := by
    intro c y _
    cases c with
    | wait q' =>
      have := hcount q' y
      cases q' <;> simpa [cnt, waiting] using this
    | current => simp [cnt, hc, eq_comm]
    | new | ready | done => simp [cnt]
  obtain ⟨once, state⟩ := I.move (by rfl) (by simp) hmove (by rfl) rfl
  exact { I with once, state, sorted := ht ▸ I.sorted }

/-- The current process becomes ready. -/
theorem yieldReady (I : Inv m) (hc : m.current = some me) :
    Inv { m.makeReady me with current := none } := by
  have hcnt c y (_ : m.NotIdle y) :
      { m with current := none }.cnt c y + (if c = .current ∧ y = me then 1 else 0) =
        m.cnt c y := by
    cases c with
    | current => simp [cnt, hc, eq_comm]
    | new | ready | wait | done => simp [cnt, waiting]
  have hI : Inv ({ m with current := none }.makeReady me) :=
    I.makeReady (by simp) hcnt I.sorted (fun _ => id) (I.current_started hc) I.fresh
  rwa [makeReady_eq] at hI ⊢

theorem yield {q : Option WaitQueue} (I : Inv m) (hq : ∀ q', q = some q' → q'.Exists m)
    (h : m.yield q = some m') : Inv m' := by
  obtain ⟨m₁, hl, h⟩ := Option.bind_eq_some_iff.mp h
  cases h
  unfold leave at hl
  split at hl
  next hc =>
    cases hl
    rw [hc]
    exact I.switch hc
  next me q hc =>
    split at hl
    · cases hl
    · cases hl
      have hc' : ({ m with state := Function.update m.state me .BLOCKED }.addTail me q).current =
          some me := by cases q <;> exact hc
      have hI := (I.block hc (hq q rfl)).switch rfl
      generalize { m with state := Function.update m.state me .BLOCKED }.addTail me q =
        m₂ at hI hc' ⊢
      rwa [hc, switch_eq hc']
  next me hc =>
    cases hl
    have hc' : (m.makeReady me).current = some me := by rw [makeReady_eq]; exact hc
    rw [hc, switch_eq hc']
    exact (I.yieldReady hc).switch rfl

/-- `Process::exit` -/
theorem exit (I : Inv m) (h : m.exit = some m') : Inv m' := by
  unfold Machine.exit at h
  split at h
  · cases h; exact I
  next p hc =>
    have hmove : ∀ c y, m.NotIdle y → Machine.cnt { m with
          reaperQueue := m.reaperQueue ++ [p]
          state := Function.update m.state p .TERMINATED
          current := none } c y + (if c = .current ∧ y = p then 1 else 0) =
        m.cnt c y + (if c = .done ∧ y = p then 1 else 0) := by
      intro c y _
      cases c with
      | current => simp [cnt, hc, eq_comm]
      | done => by_cases hy : y = p <;> simp [cnt, hy, Ne.symm]; omega
      | new | ready | wait => simp [cnt, waiting]
    obtain ⟨once, state⟩ := I.move (by rfl) (by simp) hmove (by rfl) rfl
    exact ({ I with once, state } : Inv _).yield (fun _ hq => by cases hq) h

theorem down {s : Nat} (I : Inv m) (h : m.down s = some m') : Inv m' := by
  unfold Machine.down at h
  split at h
  · split at h
    · cases h
    · exact I.yield (fun q hq => by cases hq; trivial) h
  · cases h
    refine I.frame (Nat.le_refl _) (fun q y => ?_) I.sorted
    cases q with
    | sem s' => by_cases hs : s' = s <;> simp [waiting, Function.update, hs]
    | timer => rfl

theorem up {s : Nat} (I : Inv m) : Inv (m.up s) := by
  unfold Machine.up
  split
  next hw =>
    refine I.frame (Nat.le_refl _) (fun q y => ?_) I.sorted
    cases q with
    | sem s' => by_cases hs : s' = s <;> simp [waiting, Function.update, hs]
    | timer => rfl
  next p rest hw =>
    refine I.makeReady (a := .wait (.sem s)) (by simp) (fun c y _ => ?_) I.sorted (fun _ => id) ?_
      I.fresh
    · cases c with
      | wait q =>
        cases q with
        | sem s' =>
          by_cases hs : s' = s
          · subst hs
            by_cases hy : y = p <;> simp [cnt, waiting, hw, hy, Ne.symm]
          · simp [cnt, waiting, hs]
        | timer => simp [cnt, waiting]
      | new | current | ready | done => simp [cnt]
    · exact I.started (c := .wait (.sem s)) (by simp) (by simp [cnt, waiting, hw])

/-- The loop of `tick`, with the rest `ws` of the queue of its timer. -/
theorem wake (ws : List Pid) {timers : List Timer}
    (I : Inv { m with timers := ⟨target, ws⟩ :: timers }) :
    Inv (ws.foldl Machine.makeReady { m with timers := timers }) := by
  induction ws generalizing m with
  | nil =>
    refine I.frame (Nat.le_refl _) (fun q y => ?_) (List.pairwise_cons.mp I.sorted).2
    cases q with
    | sem => rfl
    | timer target' => by_cases h : target = target' <;> simp [waiting, h]
  | cons p ws ih =>
    have hI : Inv ({ m with timers := ⟨target, ws⟩ :: timers }.makeReady p) := by
      refine I.makeReady (a := .wait (.timer target)) (by simp) (fun c y _ => ?_) I.sorted
        (fun _ => id) ?_ I.fresh
      · cases c with
        | wait q =>
          cases q with
          | sem => simp [cnt, waiting]
          | timer target' =>
            by_cases h : target = target'
            · subst h
              by_cases hy : y = p <;> simp [cnt, waiting, hy, Ne.symm]
            · simp [cnt, waiting, h, Ne.symm h]
        | new | current | ready | done => simp [cnt]
      · exact I.started (c := .wait (.timer target)) (by simp) (by simp [cnt, waiting])
    rw [List.foldl_cons]
    have := ih (m := { m with timers := timers }.makeReady p) (by rwa [makeReady_eq] at hI ⊢)
    rwa [makeReady_eq] at this ⊢

theorem fire (I : Inv m) : Inv m.fire := by
  unfold Machine.fire
  split
  · exact I
  next first timers ht =>
    split
    · have hI : Inv { m with timers := ⟨first.target, first.waiting⟩ :: timers } := ht ▸ I
      exact hI.wake first.waiting
    · exact I

theorem tick (I : Inv m) : Inv m.tick := by
  unfold Machine.tick
  split
  · exact (I.frame (Nat.le_refl _) (fun _ _ => rfl) I.sorted).fire
  · exact I.fire

end Inv

theorem findTimer_waiting (ts : List Timer) (target' : UInt32) :
    ((findTimer target ts).filter (·.target = target')).flatMap (·.waiting) =
      (ts.filter (·.target = target')).flatMap (·.waiting) := by
  induction ts with
  | nil => by_cases h : target = target' <;> simp [findTimer, h]
  | cons t ts ih =>
    rw [findTimer]
    split
    · rfl
    · split
      · by_cases h : target = target' <;> simp [h]
      · by_cases h : t.target = target' <;> simp [h, ih]

theorem findTimer_exists (ts : List Timer) : ∃ t ∈ findTimer target ts, t.target = target := by
  induction ts with
  | nil => exact ⟨_, List.mem_singleton_self _, rfl⟩
  | cons t ts ih =>
    rw [findTimer]
    split
    next h => exact ⟨t, List.mem_cons_self, h⟩
    · split
      · exact ⟨_, List.mem_cons_self, rfl⟩
      · obtain ⟨t', h, h'⟩ := ih
        exact ⟨t', List.mem_cons_of_mem _ h, h'⟩

theorem findTimer_targets (ts : List Timer) :
    ∀ x ∈ (findTimer target ts).map (·.target), x = target ∨ x ∈ ts.map (·.target) := by
  induction ts with
  | nil => simp [findTimer]
  | cons t ts ih =>
    rw [findTimer]
    split
    · exact fun x hx => .inr hx
    · split
      · exact fun x hx => by simpa [or_assoc] using hx
      · intro x hx
        rcases List.mem_cons.mp hx with rfl | hx
        · exact .inr (by simp)
        · exact (ih x hx).imp_right (List.mem_cons_of_mem _)

/-- The timers stay sorted. -/
theorem findTimer_sorted (ts : List Timer) (h : (ts.map (·.target)).Pairwise (· < ·)) :
    ((findTimer target ts).map (·.target)).Pairwise (· < ·) := by
  induction ts with
  | nil => simp [findTimer]
  | cons t ts ih =>
    obtain ⟨h1, h2⟩ := List.pairwise_cons.mp h
    rw [findTimer]
    split
    · exact h
    next hne =>
      split
      next hlt =>
        refine List.pairwise_cons.mpr ⟨fun x hx => ?_, h⟩
        rcases List.mem_cons.mp hx with rfl | hx
        exacts [hlt, UInt32.lt_trans hlt (h1 x hx)]
      next hnl =>
        refine List.pairwise_cons.mpr ⟨fun x hx => ?_, ih h2⟩
        rcases findTimer_targets ts x hx with rfl | hx
        · exact UInt32.lt_of_le_of_ne (UInt32.not_lt.mp hnl) hne
        · exact h1 x hx

namespace Inv

theorem sleepUntil {second : UInt32} (I : Inv m) (h : m.sleepUntil second = some m') : Inv m' := by
  unfold Machine.sleepUntil at h
  dsimp only at h
  split at h
  · refine (I.frame (Nat.le_refl _) (fun q y => ?_) (findTimer_sorted m.timers I.sorted)).yield
      (fun q hq => ?_) h
    · cases q with
      | sem => rfl
      | timer target' => exact congrArg (List.count y) (findTimer_waiting m.timers target')
    · cases hq
      exact findTimer_exists m.timers
  · cases h; exact I

theorem checkReaper (I : Inv m) : Inv m.checkReaper := by
  unfold Machine.checkReaper
  split
  · exact I
  next kill reaperQueue hq =>
    have hcnt : ∀ c y,
        { m with reaperQueue := reaperQueue, reaped := m.reaped ++ [kill] }.cnt c y =
          m.cnt c y := by
      intro c y
      cases c with
      | done => simp only [cnt, hq, List.count_append, List.count_cons, List.count_nil]; omega
      | new | current | ready | wait => rfl
    exact { I with
      once := I.once.congr (fun _ => id) fun c y _ => hcnt c y
      state := fun c y s hy hc => I.state c y s hy (hcnt c y ▸ hc) }

theorem start (I : Inv m) (hp : p < m.nextId) (hn : p ∉ m.started) : Inv (m.start p) := by
  have hcnt c y (_ : m.NotIdle y) :
      { m with started := m.started ++ [p] }.cnt c y + (if c = .new ∧ y = p then 1 else 0) =
        m.cnt c y := by
    cases c with
    | new => by_cases hy : y = p <;> simp [cnt, hy, hn]
    | current | ready | wait | done => simp [cnt, waiting]
  have hfresh : ∀ y ∈ m.started ++ [p], y < m.nextId := fun y hy => by
    rcases List.mem_append.mp hy with hy | hy
    · exact I.fresh y hy
    · exact List.mem_singleton.mp hy ▸ hp
  have hI : Inv ({ m with started := m.started ++ [p] }.makeReady p) :=
    I.makeReady (by simp) hcnt I.sorted (fun y hy => List.mem_append_left _ hy) (by simp) hfresh
  rw [Machine.start]
  rwa [makeReady_eq] at hI ⊢

/-- Every call keeps the places. -/
theorem step {op : Op} (I : Inv m) (h : Step m op m') : Inv m' := by
  obtain ⟨ha, h⟩ := h
  cases op with
  | construct => cases h; exact I.frame (Nat.le_succ _) (fun _ _ => rfl) I.sorted
  | start p => cases h; exact I.start ha.1 ha.2
  | boot => cases h; exact I.newIdleProcess ha
  | yield => exact I.yield (fun _ hq => by cases hq) h
  | yieldOn q => exact I.yield (fun q' hq => by cases hq; exact ha) h
  | down s => exact I.down h
  | up s => cases h; exact I.up
  | sleepUntil second => exact I.sleepUntil h
  | tick => cases h; exact (I.frame (Nat.le_refl _) (fun _ _ => rfl) I.sorted).tick
  | exit => exact I.exit h
  | checkReaper => cases h; exact I.checkReaper
  | startIrq =>
    obtain ⟨me, -, rfl⟩ := Option.map_eq_some_iff.mp h
    exact I.frame (Nat.le_refl _) (fun _ _ => rfl) I.sorted
  | endIrq =>
    cases h
    unfold Machine.endIrq
    split
    · exact I
    · exact I.frame (Nat.le_refl _) (fun _ _ => rfl) I.sorted

theorem init (count : Nat → Int32) (hz : UInt32) (state : Pid → State) :
    Inv (Machine.init count hz state) where
  once p _ := ⟨.new, fun c => by
    cases c with
    | wait q => cases q <;> simp [cnt, Machine.init, waiting]
    | new | current | ready | done => simp [cnt, Machine.init]⟩
  state c p s _ hc hs := by
    cases c with
    | wait q => cases q <;> simp [cnt, Machine.init, waiting] at hc
    | new => cases hs
    | current | ready | done => simp [cnt, Machine.init] at hc
  idle := nofun
  fifo := rfl
  logs := by simp [Machine.init]
  fresh := nofun
  sorted := .nil

end Inv

/-- Where the processes are. -/
structure ProcessesPlaced (m : Machine) : Prop where
  /-- Every started process but the idle one is, once, at exactly one place: current, in the ready
  queue, in one wait queue, or in the reaper queue or taken from it. Its state says which. -/
  place : ∀ p ∈ m.started, m.idleProcess ≠ some p → ∃ c, c ≠ .new ∧ m.cnt c p = 1 ∧
    (∀ c', c' ≠ c → m.cnt c' p = 0) ∧ c.state = some (m.state p)
  idle : ∀ p, m.idleProcess = some p → p ∉ m.readyQueue
  /-- Who became ready was dispatched in this order, or is still in the ready queue. -/
  fifo : others m.idleProcess m.readied = others m.idleProcess m.dispatched ++ m.readyQueue
  /-- A wait queue of a timer belongs to one timer. -/
  timers : (m.timers.map (·.target)).Nodup

theorem Inv.processesPlaced (I : Inv m) : ProcessesPlaced m where
  place p hp hi := by
    obtain ⟨c, hc⟩ := I.once p hi
    have hc1 : m.cnt c p = 1 := by simp [hc]
    have hnew : c ≠ .new := by
      rintro rfl
      simp [cnt, hp] at hc1
    refine ⟨c, hnew, hc1, fun c' hc' => by simp [hc, hc'], ?_⟩
    obtain ⟨s, hs⟩ : ∃ s, c.state = some s := by
      cases c with
      | new => exact (hnew rfl).elim
      | current | ready | wait | done => exact ⟨_, rfl⟩
    rw [hs, I.state c p s hi (by omega) hs]
  idle p hp := (I.idle p hp).2
  fifo := I.fifo
  timers := I.sorted.imp fun h => UInt32.ne_of_lt h

/-- **Every process is in exactly one place**, in every state of every run. -/
theorem processes_placed {count : Nat → Int32} {hz : UInt32} {state : Pid → State}
    {ops : List Op} (h : Run Step (Machine.init count hz state) ops m) : ProcessesPlaced m :=
  (h.inv (fun _ _ _ I h => I.step h) (Inv.init count hz state)).processesPlaced

/-- `Step` as a function. -/
def Op.next (m : Machine) (op : Op) : Option Machine := if op.Allowed m then op.exec m else none

theorem Op.next_step {op : Op} (h : op.next m = some m') : Step m op m' := by
  unfold Op.next at h
  split at h
  next ha => exact ⟨ha, h⟩
  · cases h

/-- Process 0 blocks, process 1 wakes it and exits. -/
theorem processes_placed_exit : ∃ m,
    Run Step (Machine.init (fun _ => 0) 1000 fun _ => .READY)
      [.construct, .construct, .boot, .start 0, .start 1, .yield, .down 0, .up 0, .exit] m ∧
    m.current = some 0 ∧ m.state 1 = .TERMINATED ∧ ProcessesPlaced m := by
  have hrun : ([Op.construct, .construct, .boot, .start 0, .start 1, .yield, .down 0, .up 0,
      .exit].foldlM Op.next (Machine.init (fun _ => 0) 1000 fun _ => .READY)).map
        (fun m : Machine => (m.current, m.state 1)) = some (some 0, State.TERMINATED) := by
    decide +kernel
  obtain ⟨m, hm, he⟩ := Option.map_eq_some_iff.mp hrun
  have h := Run.of_foldlM (fun _ _ _ => Op.next_step) hm
  exact ⟨m, h, congrArg Prod.fst he, congrArg Prod.snd he, processes_placed h⟩

end K439.Sched
