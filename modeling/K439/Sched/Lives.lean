import K439.Sched.Runs

/-!
# What scheduling leaves alone

Yielding, blocking, waking and the timer construct no process, start none and end none.
-/

namespace K439.Sched

variable {m m' : Machine} {p i : Pid} {q : Option WaitQueue} {me : Option Pid}

/-- The same processes, in the same stages of their lives. -/
structure SameLives (m m' : Machine) : Prop where
  nextId : m'.nextId = m.nextId
  idleProcess : m'.idleProcess = m.idleProcess
  started : m'.started = m.started
  reaperQueue : m'.reaperQueue = m.reaperQueue
  reaped : m'.reaped = m.reaped

namespace SameLives

theorem refl : SameLives m m := ⟨rfl, rfl, rfl, rfl, rfl⟩

theorem trans {m'' : Machine} (h : SameLives m m') (h' : SameLives m' m'') : SameLives m m'' where
  nextId := h'.nextId.trans h.nextId
  idleProcess := h'.idleProcess.trans h.idleProcess
  started := h'.started.trans h.started
  reaperQueue := h'.reaperQueue.trans h.reaperQueue
  reaped := h'.reaped.trans h.reaped

theorem makeReady (h : SameLives m m') : SameLives m (m'.makeReady p) := by
  rw [makeReady_eq]
  exact h.trans ⟨rfl, rfl, rfl, rfl, rfl⟩

theorem addTail {q : WaitQueue} (h : SameLives m m') : SameLives m (m'.addTail p q) := by
  obtain ⟨sems, timers, he, -⟩ := addTail_eq (m := m') (p := p) (q := q)
  rw [he]
  exact h.trans ⟨rfl, rfl, rfl, rfl, rfl⟩

theorem leave (h : m.leave q = some m') : SameLives m m' := by
  unfold Machine.leave at h
  split at h
  · cases h
    exact refl
  · split at h
    · cases h
    · cases h
      exact addTail ⟨rfl, rfl, rfl, rfl, rfl⟩
  · cases h
    exact makeReady refl

/-- With an idle process, no new one is made. -/
theorem switch (hi : m.idleProcess = some i) : SameLives m (m.switch me) := by
  unfold Machine.switch
  split
  · split
    · exact ⟨rfl, rfl, rfl, rfl, rfl⟩
    next h =>
      rw [hi] at h
      cases h
  · exact ⟨rfl, rfl, rfl, rfl, rfl⟩

theorem yield (hi : m.idleProcess = some i) (h : m.yield q = some m') : SameLives m m' := by
  obtain ⟨m₁, hl, h⟩ := Option.bind_eq_some_iff.mp h
  cases h
  exact (leave hl).trans (switch ((leave hl).idleProcess.trans hi))

theorem down {s : Nat} (hi : m.idleProcess = some i) (h : m.down s = some m') : SameLives m m' := by
  unfold Machine.down at h
  split at h
  · split at h
    · cases h
    · exact yield hi h
  · cases h
    exact ⟨rfl, rfl, rfl, rfl, rfl⟩

theorem up {s : Nat} : SameLives m (m.up s) := by
  unfold Machine.up
  split
  · exact ⟨rfl, rfl, rfl, rfl, rfl⟩
  · exact makeReady ⟨rfl, rfl, rfl, rfl, rfl⟩

theorem wake (ws : List Pid) (h : SameLives m m') :
    SameLives m (ws.foldl Machine.makeReady m') := by
  induction ws generalizing m' with
  | nil => exact h
  | cons p ws ih => exact ih h.makeReady

theorem fire (h : SameLives m m') : SameLives m m'.fire := by
  unfold Machine.fire
  split
  · exact h
  · split
    · exact wake _ (h.trans ⟨rfl, rfl, rfl, rfl, rfl⟩)
    · exact h

theorem handler : SameLives m m.handler := by
  unfold Machine.handler Machine.tick
  split
  · exact fire ⟨rfl, rfl, rfl, rfl, rfl⟩
  · exact fire ⟨rfl, rfl, rfl, rfl, rfl⟩

theorem sleepUntil {second : UInt32} (hi : m.idleProcess = some i)
    (h : m.sleepUntil second = some m') : SameLives m m' := by
  unfold Machine.sleepUntil at h
  dsimp only at h
  split at h
  · obtain ⟨h1, h2, h3, h4, h5⟩ := yield (by exact hi) h
    exact ⟨h1, h2, h3, h4, h5⟩
  · cases h
    exact refl

/-- `startIrq` and `endIrq` -/
theorem irq {iDepth : Pid → UInt32} : SameLives m { m with iDepth := iDepth } :=
  ⟨rfl, rfl, rfl, rfl, rfl⟩

/-- The current process is the only one that ends by `exit`. -/
theorem exit (hi : m.idleProcess = some i) (hc : m.current = some p) (h : m.exit = some m') :
    m'.nextId = m.nextId ∧ m'.idleProcess = m.idleProcess ∧ m'.started = m.started ∧
      m'.reaperQueue = m.reaperQueue ++ [p] ∧ m'.reaped = m.reaped := by
  simp only [Machine.exit, hc] at h
  obtain ⟨h1, h2, h3, h4, h5⟩ := yield (by exact hi) h
  exact ⟨h1, h2, h3, h4, h5⟩

end SameLives

end K439.Sched
