import K439.Lib.Ledger
import K439.Lib.Run
import K439.Sched.Basic

/-!
# Where a process is

A process is not started, current, in the ready queue, in a wait queue, or gone to the reaper.
`Inv` says that every process other than the idle process is at exactly one of these places and
once, that its state is the one of the place, and that the ready queue is first in, first out. A
function moves one process, or two; each move is an instance of `Inv.move`.
-/

namespace K439.Sched

inductive Place
  | new
  | current
  | ready
  | wait (q : WaitQueue)
  | done
  deriving DecidableEq

/-- The state of a process there. -/
def Place.state : Place → Option State
  | .new => none
  | .current => some .RUNNING
  | .ready => some .READY
  | .wait _ => some .BLOCKED
  | .done => some .TERMINATED

namespace Machine

variable (m : Machine)

/-- How often `p` is there. -/
def cnt : Place → Pid → Nat
  | .new, p => if p ∈ m.started then 0 else 1
  | .current, p => if m.current = some p then 1 else 0
  | .ready, p => m.readyQueue.count p
  | .wait q, p => (m.waiting q).count p
  | .done, p => (m.reaperQueue ++ m.reaped).count p

def NotIdle (p : Pid) : Prop := m.idleProcess ≠ some p

end Machine

/-- The others than the idle process. -/
def others (idle : Option Pid) (l : List Pid) : List Pid := l.filter (idle ≠ some ·)

theorem others_append (idle : Option Pid) (l l' : List Pid) :
    others idle (l ++ l') = others idle l ++ others idle l' := List.filter_append ..

theorem mem_others {idle : Option Pid} {l : List Pid} {p : Pid} :
    p ∈ others idle l ↔ p ∈ l ∧ idle ≠ some p := by simp [others]

open Machine

structure Inv (m : Machine) : Prop where
  once : Once m.cnt m.NotIdle
  state : ∀ c p s, m.NotIdle p → 0 < m.cnt c p → c.state = some s → m.state p = s
  idle : ∀ p, m.idleProcess = some p → p ∈ m.started ∧ p ∉ m.readyQueue
  fifo : others m.idleProcess m.readied = others m.idleProcess m.dispatched ++ m.readyQueue
  logs : ∀ p, p ∈ m.readied ∨ p ∈ m.dispatched → p ∈ m.started
  fresh : ∀ p ∈ m.started, p < m.nextId
  sorted : (m.timers.map (·.target)).Pairwise (· < ·)

variable {m m' : Machine} {p x : Pid} {a b : Place} {s : State} {q : WaitQueue}

namespace Inv

/-- `x` goes from `a` to `b` and takes the state of `b`. -/
theorem move (I : Inv m) (hi : m'.idleProcess = m.idleProcess) (hab : a ≠ b)
    (hcnt : ∀ c y, m.NotIdle y → m'.cnt c y + (if c = a ∧ y = x then 1 else 0) =
      m.cnt c y + (if c = b ∧ y = x then 1 else 0))
    (hstate : m'.state = Function.update m.state x s) (hs : b.state = some s) :
    Once m'.cnt m'.NotIdle ∧
      ∀ c p s, m'.NotIdle p → 0 < m'.cnt c p → c.state = some s → m'.state p = s := by
  have hni : m'.NotIdle = m.NotIdle := by unfold NotIdle; rw [hi]
  rw [hni]
  have O := I.once.move (fun _ => id) hab hcnt
  refine ⟨O, fun c p s' hp hc hcs => ?_⟩
  rw [hstate]
  by_cases hpx : p = x
  · subst hpx
    have hb := hcnt b p hp
    simp only [and_true, hab.symm, if_false, if_true] at hb
    obtain rfl := O.at_unique hp hc (by omega : 0 < m'.cnt b p)
    rw [Function.update_self]
    exact Option.some.inj (hs.symm.trans hcs)
  · rw [Function.update_of_ne hpx]
    refine I.state c p s' hp ?_ hcs
    have hcp := hcnt c p hp
    simp only [hpx, and_false, if_false, Nat.add_zero] at hcp
    rwa [← hcp]

end Inv

/-- `makeReady` in one record. -/
theorem makeReady_eq : m.makeReady p = { m with
    state := Function.update m.state p .READY
    readied := m.readied ++ [p]
    readyQueue := m.readyQueue ++ others m.idleProcess [p] } := by
  unfold makeReady
  dsimp only
  split
  next h => simp [others, Ne.symm h]
  next h => simp [others, (not_not.mp h).symm]

theorem count_others {y : Pid} (hy : m.NotIdle y) :
    (others m.idleProcess [p]).count y = if y = p then 1 else 0 := by
  by_cases h : y = p
  · subst h
    simp [others, show m.idleProcess ≠ some y from hy]
  · rw [if_neg h]
    apply List.count_eq_zero_of_not_mem
    simp [mem_others, h]

namespace Inv

/-- `makeReady` for a process that has left the place `a`. -/
theorem makeReady (I : Inv m) {current : Option Pid} {sems : Nat → Semaphore}
    {timers : List Timer} {started : List Pid} (hab : a ≠ .ready) (hcnt : ∀ c y, m.NotIdle y →
      { m with current, sems, timers, started }.cnt c y + (if c = a ∧ y = p then 1 else 0) =
        m.cnt c y)
    (hs : (timers.map (·.target)).Pairwise (· < ·)) (hst : ∀ y ∈ m.started, y ∈ started)
    (hp : p ∈ started) (hf : ∀ y ∈ started, y < m.nextId) :
    Inv ({ m with current, sems, timers, started }.makeReady p) := by
  rw [makeReady_eq]
  have hmove : ∀ c y, m.NotIdle y → Machine.cnt { m with
        current, sems, timers, started
        state := Function.update m.state p .READY
        readied := m.readied ++ [p]
        readyQueue := m.readyQueue ++ others m.idleProcess [p] } c y +
          (if c = a ∧ y = p then 1 else 0) =
      m.cnt c y + (if c = .ready ∧ y = p then 1 else 0) := by
    intro c y hy
    rw [← hcnt c y hy]
    cases c with
    | ready =>
      simp only [cnt, List.count_append, count_others hy, true_and]
      omega
    | new | current | wait | done => simp [cnt, waiting]
  obtain ⟨once, state⟩ := I.move (by rfl) hab hmove (by rfl) rfl
  refine ⟨once, state, fun i hi => ?_, ?_, fun y hy => ?_, hf, hs⟩
  · obtain ⟨h1, h2⟩ := I.idle i hi
    refine ⟨hst i h1, fun h => ?_⟩
    rcases List.mem_append.mp h with h | h
    · exact h2 h
    · exact (mem_others.mp h).2 hi
  · dsimp only
    rw [others_append, I.fifo, List.append_assoc]
  · rcases hy with hy | hy
    · rcases List.mem_append.mp hy with hy | hy
      · exact hst y (I.logs y (.inl hy))
      · exact List.mem_singleton.mp hy ▸ hp
    · exact hst y (I.logs y (.inr hy))

/-- Who is at a place other than `new` was started. -/
theorem started (I : Inv m) {c : Place} (hc : c ≠ .new) (hp : 0 < m.cnt c p) :
    p ∈ m.started := by
  by_cases hi : m.NotIdle p
  · by_contra hn
    exact hc (I.once.at_unique hi hp (by simp [cnt, hn] : 0 < m.cnt .new p))
  · exact (I.idle p (not_not.mp hi)).1

/-- Changes of what the places do not depend on. -/
theorem frame (I : Inv m) {nextId : Pid} {iDepth : Pid → UInt32} {sems : Nat → Semaphore}
    {timers : List Timer} {jiffies idleJiffies : UInt32} (hn : m.nextId ≤ nextId)
    (hw : ∀ q y, ({ m with sems, timers }.waiting q).count y = (m.waiting q).count y)
    (hs : (timers.map (·.target)).Pairwise (· < ·)) :
    Inv { m with nextId, iDepth, sems, timers, jiffies, idleJiffies } := by
  have hc : ∀ c y,
      { m with nextId, iDepth, sems, timers, jiffies, idleJiffies }.cnt c y = m.cnt c y := by
    intro c y
    cases c with
    | wait q => exact hw q y
    | new | current | ready | done => rfl
  exact { I with
    once := I.once.congr (fun _ => id) fun c y _ => hc c y
    state := fun c y s hy h => I.state c y s hy (hc c y ▸ h)
    fresh := fun y hy => Nat.lt_of_lt_of_le (I.fresh y hy) hn
    sorted := hs }

/-- The idle process is dispatched. -/
theorem dispatch_idle (I : Inv m) (hc : m.current = none) (hi : m.idleProcess = some p) :
    Inv (m.dispatch p none) := by
  have hne {y} (hy : m.NotIdle y) : y ≠ p := fun h => hy (h ▸ hi)
  have hcnt c y (hy : m.NotIdle y) : (m.dispatch p none).cnt c y = m.cnt c y := by
    cases c with
    | current => simp [cnt, dispatch, hc, (hne hy).symm]
    | new | ready | wait | done => rfl
  refine { I with once := I.once.congr (fun _ => id) hcnt, state := ?_, fifo := ?_, logs := ?_ }
  · intro c y s hy h hs
    rw [hcnt c y hy] at h
    exact (Function.update_of_ne (hne hy) _ _).trans (I.state c y s hy h hs)
  · have hpo : others m.idleProcess [p] = [] := by simp [others, hi]
    simp only [dispatch, others_append, hpo, I.fifo, List.append_nil]
  · intro y hy
    rcases hy with hy | hy
    · exact I.logs y (.inl hy)
    · rcases List.mem_append.mp hy with hy | hy
      · exact I.logs y (.inr hy)
      · exact List.mem_singleton.mp hy ▸ (I.idle p hi).1

/-- The head of the ready queue is dispatched. -/
theorem dispatch_head (I : Inv m) (hc : m.current = none) {readyQueue : List Pid}
    (hq : m.readyQueue = p :: readyQueue) :
    Inv ({ m with readyQueue := readyQueue }.dispatch p none) := by
  have hp : m.NotIdle p := fun hi => (I.idle p hi).2 (hq ▸ List.mem_cons_self)
  have hmove : ∀ c y, m.NotIdle y →
      ({ m with readyQueue := readyQueue }.dispatch p none).cnt c y +
        (if c = .ready ∧ y = p then 1 else 0) =
      m.cnt c y + (if c = .current ∧ y = p then 1 else 0) := by
    intro c y hy
    cases c with
    | ready => by_cases hyp : y = p <;> simp [cnt, dispatch, hq, hyp, Ne.symm]
    | current => simp [cnt, dispatch, hc, eq_comm]
    | new | wait | done => simp [cnt, dispatch, waiting]
  obtain ⟨once, state⟩ := I.move (by rfl) (by simp) hmove (by rfl) rfl
  have hst : p ∈ m.started := I.started (c := .ready) (by simp) (by simp [cnt, hq])
  refine { I with once, state, idle := fun i hi => ?_, fifo := ?_, logs := fun y hy => ?_ }
  · refine ⟨(I.idle i hi).1, fun h => (I.idle i hi).2 ?_⟩
    rw [hq]
    exact List.mem_cons_of_mem p h
  · have hpo : others m.idleProcess [p] = [p] := by
      simp [others, show m.idleProcess ≠ some p from hp]
    simp only [dispatch, others_append, hpo]
    rw [I.fifo, hq, List.append_assoc, List.singleton_append]
  · rcases hy with hy | hy
    · exact I.logs y (.inl hy)
    · rcases List.mem_append.mp hy with hy | hy
      · exact I.logs y (.inr hy)
      · exact List.mem_singleton.mp hy ▸ hst

/-- A new process becomes the idle process. -/
theorem newIdleProcess (I : Inv m) (hi : m.idleProcess = none) : Inv m.newIdleProcess := by
  have hnew : m.nextId ∉ m.started := fun h => Nat.lt_irrefl _ (I.fresh _ h)
  have hni : m.NotIdle m.nextId := by simp [NotIdle, hi]
  have hnq : m.nextId ∉ m.readyQueue := fun h =>
    hnew (I.started (c := .ready) (by simp) (List.count_pos_iff.mpr h))
  have heq : m.newIdleProcess = { m with
      nextId := m.nextId + 1
      idleProcess := some m.nextId
      state := Function.update m.state m.nextId .READY
      readied := m.readied ++ [m.nextId]
      started := m.started ++ [m.nextId] } := by
    rw [Machine.newIdleProcess, start, makeReady_eq]
    simp [others]
  have hsame {l : List Pid} (hl : ∀ y ∈ l, y ∈ m.started) :
      others (some m.nextId) l = others m.idleProcess l := by
    rw [hi]
    refine List.filter_congr fun y hy => ?_
    have : m.nextId ≠ y := fun h => hnew (h ▸ hl y hy)
    simp [this]
  rw [heq]
  have hcnt : ∀ c y, y ≠ m.nextId → Machine.cnt { m with
      nextId := m.nextId + 1
      idleProcess := some m.nextId
      state := Function.update m.state m.nextId .READY
      readied := m.readied ++ [m.nextId]
      started := m.started ++ [m.nextId] } c y = m.cnt c y := by
    intro c y hy
    cases c with
    | new => simp [cnt, hy]
    | current | ready | wait | done => rfl
  have hnot : ∀ y, (some m.nextId ≠ some y) → y ≠ m.nextId ∧ m.NotIdle y := fun y hy =>
    ⟨fun h => hy (h ▸ rfl), by simp [NotIdle, hi]⟩
  refine ⟨I.once.congr (fun y hy => (hnot y hy).2) fun c y hy => hcnt c y (hnot y hy).1,
    fun c y s hy h hs => ?_, ?_, ?_, ?_, ?_, I.sorted⟩
  · rw [hcnt c y (hnot y hy).1] at h
    exact (Function.update_of_ne (hnot y hy).1 _ _).trans (I.state c y s (hnot y hy).2 h hs)
  · rintro i hi'
    obtain rfl := Option.some.inj hi'
    exact ⟨by simp, hnq⟩
  · dsimp only
    rw [others_append, hsame fun y hy => I.logs y (.inl hy), hsame fun y hy => I.logs y (.inr hy),
      I.fifo]
    simp [others]
  · intro y hy
    rcases hy with hy | hy
    · rcases List.mem_append.mp hy with hy | hy
      · exact List.mem_append_left _ (I.logs y (.inl hy))
      · exact List.mem_append_right _ hy
    · exact List.mem_append_left _ (I.logs y (.inr hy))
  · intro y hy
    rcases List.mem_append.mp hy with hy | hy
    · exact Nat.lt_succ_of_lt (I.fresh y hy)
    · exact List.mem_singleton.mp hy ▸ Nat.lt_succ_self _

end Inv

end K439.Sched
