import K439.Sched.Interrupts
import K439.Sched.Runs

/-!
# Nesting of interrupts

The count of a process is determined by its stack: `Pending` adds up what is still to be enabled
there. So no `enable` is one too many, an interrupt finds the count at 0 and leaves it at 0, and the
flag, which is on only over a count of 0, fits the process that runs.
-/

namespace K439.Sched

variable {m m' : Machine} {c c' : Cpu} {p me : Pid} {q : Option WaitQueue} {i : Instr}
  {l l' rest : List Instr} {n d : Nat}

/-! ## The scheduler -/

/-- The process has exited. -/
def Gone (m : Machine) (p : Pid) : Prop := p ∈ m.reaperQueue ∨ p ∈ m.reaped

/-- Who has exited and who is in an interrupt is not the business of a step; an idle process may be
made. -/
structure Aside (m m' : Machine) : Prop where
  iDepth : m'.iDepth = m.iDepth
  gone : ∀ p, Gone m' p ↔ Gone m p
  nextId : m.nextId ≤ m'.nextId
  idle : ∀ p, m.idleProcess = some p → m'.idleProcess = some p
  new : ∀ p, m'.idleProcess = some p → m.idleProcess = some p ∨ m.idleProcess = none ∧
    m.nextId ≤ p

namespace Aside

theorem refl : Aside m m := ⟨rfl, fun _ => Iff.rfl, Nat.le_refl _, fun _ => id, fun _ => .inl⟩

theorem trans {m'' : Machine} (h : Aside m m') (h' : Aside m' m'') : Aside m m'' where
  iDepth := h'.iDepth.trans h.iDepth
  gone p := (h'.gone p).trans (h.gone p)
  nextId := Nat.le_trans h.nextId h'.nextId
  idle p hp := h'.idle p (h.idle p hp)
  new p hp := by
    rcases h'.new p hp with hp | ⟨hn, hp⟩
    · exact h.new p hp
    · cases hi : m.idleProcess with
      | none => exact .inr ⟨rfl, Nat.le_trans h.nextId hp⟩
      | some i =>
        rw [h.idle i hi] at hn
        cases hn

/-- The fields that count are as they were. -/
theorem of_eq (h1 : m'.iDepth = m.iDepth) (h2 : m'.reaperQueue = m.reaperQueue)
    (h3 : m'.reaped = m.reaped) (h4 : m.nextId ≤ m'.nextId)
    (h5 : m'.idleProcess = m.idleProcess) : Aside m m' where
  iDepth := h1
  gone p := by rw [Gone, h2, h3]; rfl
  nextId := h4
  idle p hp := h5.trans hp
  new p hp := .inl (h5.symm.trans hp)

theorem makeReady : Aside m (m.makeReady p) := by
  rw [makeReady_eq]
  exact of_eq rfl rfl rfl (Nat.le_refl _) rfl

theorem start : Aside m (m.start p) := by
  rw [Machine.start, makeReady_eq]
  exact of_eq rfl rfl rfl (Nat.le_refl _) rfl

theorem newIdleProcess (hi : m.idleProcess = none) : Aside m m.newIdleProcess := by
  have hnew : Aside m { m with nextId := m.nextId + 1, idleProcess := some m.nextId } := by
    refine ⟨rfl, fun _ => Iff.rfl, Nat.le_succ _, fun p hp => ?_, fun p hp => ?_⟩
    · rw [hi] at hp
      cases hp
    · exact .inr ⟨hi, Nat.le_of_eq (Option.some.inj hp)⟩
  exact hnew.trans start

theorem dispatch {prev : Option Pid} : Aside m (m.dispatch p prev) :=
  of_eq rfl rfl rfl (Nat.le_refl _) rfl

theorem switch {me : Option Pid} : Aside m (m.switch me) := by
  unfold Machine.switch
  split
  · split
    · exact dispatch
    next hi => exact (newIdleProcess hi).trans dispatch
  · exact of_eq rfl rfl rfl (Nat.le_refl _) rfl

theorem leave (h : m.leave q = some m') : Aside m m' := by
  unfold Machine.leave at h
  split at h
  · cases h
    exact refl
  · split at h
    · cases h
    next me q hc hd =>
      cases h
      obtain ⟨sems, timers, he, -⟩ :=
        addTail_eq (m := { m with state := Function.update m.state me .BLOCKED }) (p := me) (q := q)
      rw [he]
      exact of_eq rfl rfl rfl (Nat.le_refl _) rfl
  · cases h
    exact makeReady

theorem yield (h : m.yield q = some m') : Aside m m' := by
  obtain ⟨m₁, hl, h⟩ := Option.bind_eq_some_iff.mp h
  cases h
  exact (leave hl).trans switch

theorem down {s : Nat} (h : m.down s = some m') : Aside m m' := by
  unfold Machine.down at h
  split at h
  · split at h
    · cases h
    · exact yield h
  · cases h
    exact of_eq rfl rfl rfl (Nat.le_refl _) rfl

theorem sleepUntil {second : UInt32} (h : m.sleepUntil second = some m') : Aside m m' := by
  unfold Machine.sleepUntil at h
  dsimp only at h
  split at h
  · refine .trans ?_ (yield h)
    exact of_eq rfl rfl rfl (Nat.le_refl _) rfl
  · cases h
    exact refl

end Aside

theorem makeReady_current : (m.makeReady p).current = m.current := by rw [makeReady_eq]

theorem leave_current (h : m.leave q = some m') : m'.current = m.current := by
  unfold Machine.leave at h
  split at h
  · cases h
    rfl
  · split at h
    · cases h
    next me q hc hd =>
      cases h
      obtain ⟨sems, timers, he, -⟩ :=
        addTail_eq (m := { m with state := Function.update m.state me .BLOCKED }) (p := me) (q := q)
      rw [he]
  · cases h
    exact makeReady_current

/-- A process runs after `dispatch`. -/
theorem dispatch_current {prev : Option Pid} (h : prev = none ∨ prev = m.current) :
    ∃ next, (m.dispatch p prev).current = some next := by
  by_cases hp : some p = prev
  · refine ⟨p, ?_⟩
    subst hp
    have hc : m.current = some p := by
      rcases h with h | h
      · cases h
      · exact h.symm
    rw [Machine.dispatch, if_neg (fun hne => hne rfl), hc]
  · exact ⟨p, if_pos hp⟩

theorem switch_current {prev : Option Pid} (h : prev = none ∨ prev = m.current) :
    ∃ next, (m.switch prev).current = some next := by
  unfold Machine.switch
  split
  · split
    · exact dispatch_current h
    · refine dispatch_current (h.imp_right fun h => ?_)
      rw [Machine.newIdleProcess, Machine.start]
      exact h.trans
        (makeReady_current
        (m := { m with nextId := m.nextId + 1, idleProcess := some m.nextId })).symm
  · exact dispatch_current h

theorem yield_current (h : m.yield q = some m') : ∃ next, m'.current = some next := by
  obtain ⟨m₁, hl, h⟩ := Option.bind_eq_some_iff.mp h
  cases h
  exact switch_current (.inr (leave_current hl).symm)

theorem down_current {s : Nat} (h : m.down s = some m') :
    (∃ y, m'.current = some y) ∨ m'.current = m.current := by
  unfold Machine.down at h
  split at h
  · split at h
    · cases h
    · exact .inl (yield_current h)
  · cases h
    exact .inr rfl

theorem sleepUntil_current {second : UInt32} (h : m.sleepUntil second = some m') :
    (∃ y, m'.current = some y) ∨ m'.current = m.current := by
  unfold Machine.sleepUntil at h
  dsimp only at h
  split at h
  · exact .inl (yield_current h)
  · cases h
    exact .inr rfl

theorem up_current {s : Nat} : (m.up s).current = m.current := by
  unfold Machine.up
  split
  · rfl
  · exact makeReady_current

theorem Aside.up {s : Nat} : Aside m (m.up s) := by
  unfold Machine.up
  split
  · exact of_eq rfl rfl rfl (Nat.le_refl _) rfl
  · refine .trans ?_ makeReady
    exact of_eq rfl rfl rfl (Nat.le_refl _) rfl

theorem Aside.checkReaper : Aside m m.checkReaper := by
  unfold Machine.checkReaper
  split
  · exact refl
  next kill reaperQueue hq =>
    refine ⟨rfl, fun p => ?_, Nat.le_refl _, fun _ => id, fun _ => .inl⟩
    rw [Gone, Gone, hq, List.mem_append, List.mem_singleton, List.mem_cons]
    tauto

theorem wake_current (ws : List Pid) : (ws.foldl Machine.makeReady m).current = m.current := by
  induction ws generalizing m with
  | nil => rfl
  | cons p ws ih => exact ih.trans makeReady_current

theorem Aside.wake (ws : List Pid) : Aside m (ws.foldl Machine.makeReady m) := by
  induction ws generalizing m with
  | nil => exact .refl
  | cons p ws ih => exact .trans .makeReady ih

theorem fire_spec : Aside m m.fire ∧ m.fire.current = m.current := by
  unfold Machine.fire
  split
  · exact ⟨.refl, rfl⟩
  · split
    · refine ⟨.trans ?_ (.wake _), wake_current _⟩
      exact .of_eq rfl rfl rfl (Nat.le_refl _) rfl
    · exact ⟨.refl, rfl⟩

theorem handler_spec : Aside m m.handler ∧ m.handler.current = m.current := by
  unfold Machine.handler Machine.tick
  split
  · refine ⟨.trans ?_ fire_spec.1, fire_spec.2⟩
    exact .of_eq rfl rfl rfl (Nat.le_refl _) rfl
  · refine ⟨.trans ?_ fire_spec.1, fire_spec.2⟩
    exact .of_eq rfl rfl rfl (Nat.le_refl _) rfl

theorem Inv.gone_started (I : Inv m) (h : Gone m p) : p ∈ m.started :=
  I.started (c := .done) (by simp) (List.count_pos_iff.mpr (List.mem_append.mpr h))

/-- Who runs has not exited. -/
theorem Inv.current_not_gone (I : Inv m) (hi : ∀ i, m.idleProcess = some i → ¬Gone m i)
    (hc : m.current = some p) : ¬Gone m p := by
  intro hg
  by_cases hn : m.idleProcess = some p
  · exact hi p hn hg
  · have hdone : 0 < m.cnt .done p := List.count_pos_iff.mpr (List.mem_append.mpr hg)
    have hcur : 0 < m.cnt .current p := by
      rw [Machine.cnt, if_pos hc]
      exact Nat.one_pos
    cases I.once.at_unique hn hdone hcur

/-! ## Stacks -/

/-- The instructions of an interrupt. -/
def Instr.Irq : Instr → Prop
  | .startIrq | .endIrq | .iret => True
  | _ => False

/-- The instructions which neither count nor uncount. -/
def Instr.Plain : Instr → Prop
  | .disable | .enable | .reap | .startIrq | .endIrq | .iret => False
  | _ => True

/-- The `disableCount` and `iDepth` over which the stack is to be done. -/
inductive Pending : Nat → Nat → List Instr → Prop
  | nil : Pending 0 0 []
  | plain {j k e t} : j.Plain → Pending k e t → Pending k e (j :: t)
  | disable {k e t} : e ≤ k → Pending (k + 1) e t → Pending k e (.disable :: t)
  | enable {k e t} : Pending k e t → Pending (k + 1) e (.enable :: t)
  | reap {k e t} : Pending k e t → Pending (k + 1) e (.reap :: t)
  | endIrq {t} : Pending 0 0 t → Pending 1 1 (.endIrq :: t)
  | iret {t} : Pending 0 0 t → Pending 0 0 (.iret :: t)

namespace Pending

/-- In an interrupt the count is not 0. -/
theorem le (h : Pending n d l) : d ≤ n := by
  induction h with
  | nil | endIrq | iret => exact Nat.le_refl _
  | plain _ _ ih => exact ih
  | disable hd => exact hd
  | enable _ ih | reap _ ih => exact Nat.le_succ_of_le ih

theorem le_depth (h : Pending n d l) : n ≤ depth l := by
  induction h with
  | nil | iret => exact Nat.zero_le _
  | plain _ _ ih => exact Nat.le_trans ih (List.sublist_cons_self _ _).countP_le
  | disable _ _ ih =>
    exact Nat.le_trans (Nat.le_of_succ_le ih) (List.sublist_cons_self _ _).countP_le
  | enable _ ih | reap _ ih | endIrq _ ih =>
    rw [depth, List.countP_cons_of_pos rfl]
    exact Nat.succ_le_succ ih

/-- The stack says which the count is. -/
theorem unique {n' d' : Nat} (h : Pending n d l) (h' : Pending n' d' l) : n = n' ∧ d = d' := by
  induction h generalizing n' d' with
  | nil => cases h'; exact ⟨rfl, rfl⟩
  | plain hi _ ih =>
    cases h' with
    | plain _ h' => exact ih h'
    | disable | enable | reap | endIrq | iret => exact hi.elim
  | disable _ _ ih =>
    cases h' with
    | plain hi => exact hi.elim
    | disable _ h' => exact ⟨Nat.succ.inj (ih h').1, (ih h').2⟩
  | enable _ ih =>
    cases h' with
    | plain hi => exact hi.elim
    | enable h' => exact ⟨congrArg Nat.succ (ih h').1, (ih h').2⟩
  | reap _ ih =>
    cases h' with
    | plain hi => exact hi.elim
    | reap h' => exact ⟨congrArg Nat.succ (ih h').1, (ih h').2⟩
  | endIrq =>
    cases h' with
    | plain hi => exact hi.elim
    | endIrq => exact ⟨rfl, rfl⟩
  | iret =>
    cases h' with
    | plain hi => exact hi.elim
    | iret => exact ⟨rfl, rfl⟩

theorem tail (h : Pending n d (i :: l)) (hi : i.Plain) : Pending n d l := by
  cases h with
  | plain _ h => exact h
  | disable | enable | reap | endIrq | iret => exact hi.elim

theorem of_disable (h : Pending n d (.disable :: l)) : Pending (n + 1) d l := by
  cases h with
  | plain hi => exact hi.elim
  | disable _ h => exact h

theorem of_enable (h : Pending n d (.enable :: l)) : ∃ k, n = k + 1 ∧ Pending k d l := by
  cases h with
  | plain hi => exact hi.elim
  | enable h => exact ⟨_, rfl, h⟩

theorem of_reap (h : Pending n d (.reap :: l)) : ∃ k, n = k + 1 ∧ Pending k d l := by
  cases h with
  | plain hi => exact hi.elim
  | reap h => exact ⟨_, rfl, h⟩

theorem of_endIrq (h : Pending n d (.endIrq :: l)) : n = 1 ∧ d = 1 ∧ Pending 0 0 l := by
  cases h with
  | plain hi => exact hi.elim
  | endIrq h => exact ⟨rfl, rfl, h⟩

theorem of_iret (h : Pending n d (.iret :: l)) : n = 0 ∧ d = 0 ∧ Pending 0 0 l := by
  cases h with
  | plain hi => exact hi.elim
  | iret h => exact ⟨rfl, rfl, h⟩

end Pending

/-- No interrupt is to end. -/
def Quiet (l : List Instr) : Prop := ∀ i ∈ l, ¬i.Irq

/-- Code that leaves the count as it finds it. -/
structure Balanced (l : List Instr) : Prop where
  pending : ∀ n d rest, Pending n d rest → Pending n d (l ++ rest)
  quiet : Quiet l

namespace Balanced

theorem nil : Balanced [] := ⟨fun _ _ _ => id, nofun⟩

theorem append (h : Balanced l) (h' : Balanced l') : Balanced (l ++ l') where
  pending n d rest hr := by
    rw [List.append_assoc]
    exact h.pending _ _ _ (h'.pending _ _ _ hr)
  quiet i hi := (List.mem_append.mp hi).elim (h.quiet i) (h'.quiet i)

theorem plain (hi : i.Plain) : Balanced [i] where
  pending _ _ _ := .plain hi
  quiet j hj := by
    obtain rfl := List.mem_singleton.mp hj
    cases j with
    | startIrq | endIrq | iret => exact hi.elim
    | _ => exact not_false

/-- `disable(); ...; enable();` -/
theorem critical (h : Balanced l) : Balanced (.disable :: l ++ [.enable]) where
  pending n d rest hr := by
    rw [List.cons_append, List.cons_append, List.append_assoc]
    exact .disable hr.le (h.pending _ _ _ (.enable hr))
  quiet i hi := by
    rcases List.mem_cons.mp hi with rfl | hi
    · exact not_false
    rcases List.mem_append.mp hi with hi | hi
    · exact h.quiet i hi
    · obtain rfl := List.mem_singleton.mp hi
      exact not_false

theorem cons (hi : i.Plain) (h : Balanced l) : Balanced (i :: l) := (plain hi).append h

theorem makeReady : Balanced makeReadyCode := critical nil

theorem wake (ws : List Pid) : Balanced (ws.flatMap fun _ => makeReadyCode) := by
  induction ws with
  | nil => exact nil
  | cons _ ws ih => exact makeReady.append ih

theorem block (k : Leaving) : Balanced (blockCode k) := by
  refine critical (cons ?_ (plain ?_))
  · exact trivial
  · exact trivial

end Balanced

theorem Call.balanced (f : Call) : Balanced f.code := by
  cases f with
  | construct => exact .plain trivial
  | boot | start | critical | down | up | sleepUntil =>
    refine .critical (.plain ?_)
    exact trivial
  | yield =>
    refine .critical (.cons ?_ (.cons ?_ (.plain ?_)))
    all_goals exact trivial
  | checkReaper =>
    refine ⟨fun n d rest h => .disable h.le (.reap h), fun i hi => ?_⟩
    rcases List.mem_cons.mp hi with rfl | hi
    · exact not_false
    · obtain rfl := List.mem_singleton.mp hi
      exact not_false
  | exit =>
    refine .cons ?_ (.critical (.plain ?_))
    · exact trivial
    · exact trivial

/-- The stack at the entry of an interrupt, which is taken over a count of 0. -/
def Entering (n d : Nat) (l : List Instr) : Prop :=
  n = 0 ∧ d = 0 ∧ ∃ t, l = .startIrq :: t ∧ Pending 1 1 t

/-- An interrupt leaves the count as it finds it. -/
theorem Pending.picIrq {irq : Nat} (h : Pending 0 0 l) : Entering 0 0 (picIrq irq ++ l) := by
  have hbody :
      Balanced ((if irq = 0 then [.disable, .tick, .enable] else []) ++ [.call .yield]) := by
    refine .append ?_ (.plain trivial)
    split
    · refine .critical (.plain ?_)
      exact trivial
    · exact .nil
  have hl := hbody.pending _ _ _ (.endIrq (.iret h))
  rw [List.append_assoc] at hl
  refine ⟨rfl, rfl, _, ?_, hl⟩
  rw [K439.Sched.picIrq, List.cons_append, List.cons_append, List.append_assoc]
  rfl

/-! ## The invariant -/

structure Nested (c : Cpu) : Prop where
  sched : Inv c.sched
  idle : ∀ p, c.sched.idleProcess = some p → ¬Gone c.sched p
  /-- `kernelMain` -/
  alone : c.sched.current = none → c.interrupts = false ∧ (∃ n d, Pending n d c.stack) ∧
    Quiet c.stack
  stack : ∀ p, c.sched.current = some p →
    Pending (c.disableCount p).toNat (c.sched.iDepth p).toNat c.stack ∨
    c.interrupts = false ∧ Entering (c.disableCount p).toNat (c.sched.iDepth p).toNat c.stack
  /-- of who may run again -/
  kesp : ∀ p, c.sched.current ≠ some p → ¬Gone c.sched p →
    Pending (c.disableCount p).toNat (c.sched.iDepth p).toNat (c.kesp p)
  flag : ∀ p, c.sched.current = some p → c.interrupts = true → c.disableCount p = 0

/-- The stack `l` may be replaced by `l'`. -/
structure Refill (l l' : List Instr) : Prop where
  pending : ∀ n d, Pending n d l → Pending n d l'
  quiet : Quiet l → Quiet l'

theorem Refill.push (hi : i.Plain) (h : Balanced l) : Refill (i :: rest) (l ++ rest) where
  pending _ _ hp := h.pending _ _ _ (hp.tail hi)
  quiet hq j hj :=
    (List.mem_append.mp hj).elim (h.quiet j) fun hj => hq j (List.mem_cons_of_mem _ hj)

theorem Refill.reap : Refill (.reap :: rest) (.enable :: rest) where
  pending n d hp := by
    obtain ⟨k, rfl, hk⟩ := hp.of_reap
    exact .enable hk
  quiet hq j hj := by
    rcases List.mem_cons.mp hj with rfl | hj
    · exact not_false
    · exact hq j (List.mem_cons_of_mem _ hj)

theorem Refill.reapOne : Refill (.reap :: rest) ([.enable, .body, .call .checkReaper] ++ rest) where
  pending n d hp := by
    obtain ⟨k, rfl, hk⟩ := hp.of_reap
    exact .enable (.plain trivial (.plain trivial hk))
  quiet hq j hj := by
    rcases List.mem_append.mp hj with hj | hj
    · simp only [List.mem_cons, List.not_mem_nil, or_false] at hj
      rcases hj with rfl | rfl | rfl
      all_goals exact not_false
    · exact hq j (List.mem_cons_of_mem _ hj)

namespace Nested

/-- The idle process has not exited after a step either. -/
theorem idle_aside (N : Nested c) (A : Aside c.sched m) (p : Pid) (hp : m.idleProcess = some p) :
    ¬Gone m p := by
  rw [A.gone]
  rcases A.new p hp with hp | ⟨-, hp⟩
  · exact N.idle p hp
  · exact fun hg => Nat.not_lt_of_le hp (N.sched.fresh p (N.sched.gone_started hg))

theorem pending (N : Nested c) (hc : c.sched.current = some p) (hs : c.stack = i :: rest)
    (hi : i ≠ .startIrq) :
    Pending (c.disableCount p).toNat (c.sched.iDepth p).toNat (i :: rest) := by
  rw [← hs]
  rcases N.stack p hc with hp | ⟨-, -, -, t, ht, -⟩
  · exact hp
  · rw [hs] at ht
    exact (hi (List.cons.inj ht).1).elim

/-- A step of the scheduler that stays with the process, and a new stack. -/
theorem refill (N : Nested c) (hs : c.stack = i :: rest) (hi : i ≠ .startIrq) (I : Inv m)
    (A : Aside c.sched m) (hc : m.current = c.sched.current) (hr : Refill (i :: rest) l) :
    Nested { c with sched := m, stack := l } where
  sched := I
  idle := N.idle_aside A
  alone h := by
    obtain ⟨hoff, ⟨n, d, hp⟩, hq⟩ := N.alone (hc.symm.trans h)
    rw [hs] at hp hq
    exact ⟨hoff, ⟨n, d, hr.pending n d hp⟩, hr.quiet hq⟩
  stack p h := by
    dsimp only
    rw [A.iDepth]
    exact .inl (hr.pending _ _ (N.pending (hc.symm.trans h) hs hi))
  kesp p h hg := by
    dsimp only
    rw [A.iDepth]
    exact N.kesp p (fun he => h (hc.trans he)) (mt (A.gone p).mpr hg)
  flag p h := N.flag p (hc.symm.trans h)

/-- A new stack. -/
theorem restack (N : Nested c) (hs : c.stack = i :: rest) (hi : i ≠ .startIrq)
    (hr : Refill (i :: rest) l) :
    Nested { c with stack := l } := N.refill hs hi N.sched .refl rfl hr

/-- A change of the count, the depth and the flag, with an instruction done. -/
theorem recount (N : Nested c) (hc : c.sched.current = some p) {b : Bool} {k : UInt32}
    {e : Pid → UInt32} (hd : ∀ q, q ≠ p → e q = c.sched.iDepth q)
    (hp : Pending k.toNat (e p).toNat l) (hf : b = true → k = 0) :
    Nested { c with
      sched := { c.sched with iDepth := e }
      interrupts := b
      disableCount := Function.update c.disableCount p k
      stack := l } where
  sched := N.sched.frame (Nat.le_refl _) (fun _ _ => rfl) N.sched.sorted
  idle := N.idle
  alone h := by
    rw [hc] at h
    cases h
  stack q h := by
    obtain rfl : p = q := Option.some.inj (hc.symm.trans h)
    dsimp only
    rw [Function.update_self]
    exact .inl hp
  kesp q h hg := by
    have hne : q ≠ p := fun he => h (he ▸ hc)
    dsimp only
    rw [Function.update_of_ne hne, hd q hne]
    exact N.kesp q h hg
  flag q h hon := by
    obtain rfl : p = q := Option.some.inj (hc.symm.trans h)
    exact (Function.update_self ..).trans (hf hon)

theorem disable (N : Nested c) (hs : c.stack = .disable :: rest)
    (hfit : depth rest ≤ STACK_LONGS) : Nested { c with stack := rest }.disable := by
  unfold Cpu.disable
  split
  next hc =>
    obtain ⟨-, ⟨n, d, hp⟩, hq⟩ := N.alone hc
    rw [hs] at hp hq
    exact { N with
      alone := fun _ =>
        ⟨rfl, ⟨_, _, hp.of_disable⟩, fun i hi => hq i (List.mem_cons_of_mem _ hi)⟩
      stack := fun p h => nomatch hc.symm.trans h
      flag := fun p h => nomatch hc.symm.trans h }
  next me hc =>
    have hp := (N.pending hc hs nofun).of_disable
    refine N.recount hc (fun _ _ => rfl) ?_ nofun
    have hlt : (c.disableCount me).toNat + 1 < 2 ^ 32 :=
      Nat.lt_of_le_of_lt (Nat.le_trans hp.le_depth hfit) (by decide)
    rw [UInt32.toNat_add, UInt32.toNat_one, Nat.mod_eq_of_lt hlt]
    exact hp

/-- `enable` does not panic, and turns interrupts on when the count gets to 0. -/
theorem enable (N : Nested c) (hs : c.stack = .enable :: rest) :
    ∃ c', Cpu.enable { c with stack := rest } = .ok c' ∧ Nested c' := by
  unfold Cpu.enable
  split
  next hc =>
    obtain ⟨hoff, ⟨n, d, hp⟩, hq⟩ := N.alone hc
    rw [hs] at hp hq
    obtain ⟨k, -, hp⟩ := hp.of_enable
    exact ⟨_, rfl, { N with
      alone := fun _ => ⟨hoff, ⟨_, _, hp⟩, fun i hi => hq i (List.mem_cons_of_mem _ hi)⟩
      stack := fun p h => nomatch hc.symm.trans h }⟩
  next me hc =>
    obtain ⟨n, hn, hp⟩ := (N.pending hc hs nofun).of_enable
    have h0 : c.disableCount me ≠ 0 := by
      intro h0
      rw [h0] at hn
      cases hn
    dsimp only
    rw [if_neg h0]
    split
    next h1 =>
      obtain rfl : n = 0 := by
        rw [h1] at hn
        exact (Nat.succ.inj hn).symm
      exact ⟨_, rfl, N.recount hc (fun _ _ => rfl) hp fun _ => rfl⟩
    next h1 =>
      have hk : (c.disableCount me - 1).toNat = n := by
        have hle : 1 ≤ c.disableCount me :=
          UInt32.le_iff_toNat_le.mpr (hn ▸ Nat.succ_le_succ (Nat.zero_le n))
        rw [UInt32.toNat_sub_of_le _ _ hle, hn]
        rfl
      refine ⟨_, rfl, N.recount hc (fun _ _ => rfl) (hk ▸ hp) fun hon => ?_⟩
      exact absurd (N.flag me hc hon) h0

/-- An interrupt begins over a count of 0, with a process. -/
theorem startIrq (N : Nested c) (hs : c.stack = .startIrq :: rest) :
    ∃ c', Cpu.startIrq { c with stack := rest } = .ok c' ∧ Nested c' := by
  cases hc : c.sched.current with
  | none => exact ((N.alone hc).2.2 .startIrq (hs ▸ List.mem_cons_self) trivial).elim
  | some me =>
    obtain ⟨hoff, hn, hd, hp⟩ : c.interrupts = false ∧ c.disableCount me = 0 ∧
        c.sched.iDepth me = 0 ∧ Pending 1 1 rest := by
      rcases N.stack me hc with hp | ⟨hoff, hn, hd, t, ht, hp⟩
      · rw [hs] at hp
        generalize (c.disableCount me).toNat = k, (c.sched.iDepth me).toNat = e at hp
        cases hp with
        | plain hi => exact hi.elim
      · rw [hs] at ht
        obtain ⟨-, rfl⟩ := List.cons.inj ht
        exact ⟨hoff, UInt32.toNat_inj.mp hn, UInt32.toNat_inj.mp hd, hp⟩
    have hirq : c.sched.startIrq =
        some { c.sched with iDepth := Function.update c.sched.iDepth me (c.sched.iDepth me + 1) } :=
      Option.map_eq_some_iff.mpr ⟨me, hc, rfl⟩
    have hdepth : Pending (1 : UInt32).toNat
        (Function.update c.sched.iDepth me (c.sched.iDepth me + 1) me).toNat rest := by
      rw [Function.update_self, hd]
      exact hp
    have hN := N.recount hc (fun q hq => Function.update_of_ne hq ..) hdepth fun h =>
        nomatch hoff.symm.trans h
    refine ⟨_, ?_, hN⟩
    unfold Cpu.startIrq
    split
    next me' m hc' hm =>
      obtain rfl := Option.some.inj (hc.symm.trans hc')
      obtain rfl := Option.some.inj (hirq.symm.trans hm)
      exact if_neg (not_not.mpr hn)
    next h => exact (h me _ hc hirq).elim

/-- An interrupt ends over a count of 1. -/
theorem endIrq (N : Nested c) (hs : c.stack = .endIrq :: rest) :
    ∃ c', Cpu.endIrq { c with stack := rest } = .ok c' ∧ Nested c' := by
  cases hc : c.sched.current with
  | none => exact ((N.alone hc).2.2 .endIrq (hs ▸ List.mem_cons_self) trivial).elim
  | some me =>
    obtain ⟨hn, hd, hp⟩ := (N.pending hc hs nofun).of_endIrq
    have h1 : c.disableCount me = 1 := UInt32.toNat_inj.mp hn
    have hd1 : c.sched.iDepth me = 1 := UInt32.toNat_inj.mp hd
    have hirq : c.sched.endIrq =
        { c.sched with iDepth := Function.update c.sched.iDepth me (c.sched.iDepth me - 1) } := by
      unfold Machine.endIrq
      split
      next hn => cases hc.symm.trans hn
      next me' hc' =>
        obtain rfl : me = me' := Option.some.inj (hc.symm.trans hc')
        rfl
    have hdepth : Pending (0 : UInt32).toNat
        (Function.update c.sched.iDepth me (c.sched.iDepth me - 1) me).toNat rest := by
      rw [Function.update_self, hd1]
      exact hp
    have hN := N.recount (b := c.interrupts) hc (fun q hq => Function.update_of_ne hq ..) hdepth
        fun _ => rfl
    refine ⟨_, ?_, hN⟩
    unfold Cpu.endIrq
    split
    next hn => cases hc.symm.trans hn
    next me' hc' =>
      obtain rfl := Option.some.inj (hc.symm.trans hc')
      dsimp only
      rw [if_neg (not_not.mpr h1), hirq]

theorem iret (N : Nested c) (hs : c.stack = .iret :: rest) :
    Nested { c with stack := rest, interrupts := true } := by
  cases hc : c.sched.current with
  | none => exact ((N.alone hc).2.2 .iret (hs ▸ List.mem_cons_self) trivial).elim
  | some me =>
    obtain ⟨hn, hd, hp⟩ := (N.pending hc hs nofun).of_iret
    have h0 : c.disableCount me = 0 := UInt32.toNat_inj.mp hn
    have hp' : Pending (c.disableCount me).toNat (c.sched.iDepth me).toNat rest := by
      rw [hn, hd]
      exact hp
    have hN := N.recount (b := true) hc (fun _ _ => rfl) hp' fun _ => h0
    rwa [Function.update_eq_self] at hN

/-- Another process, or the same one, runs after a step of the scheduler. -/
theorem dispatch (N : Nested c) {k : Leaving} (hs : c.stack = .switch k :: rest) (I : Inv m)
    (hd : m.iDepth = c.sched.iDepth) {prev : Option Pid}
    (hprev : prev = none ∨ prev = c.sched.current)
    (hgone : ∀ p, Gone m p ↔ Gone c.sched p ∨ prev = none ∧ c.sched.current = some p)
    (hidle : ∀ p, m.idleProcess = some p → ¬Gone m p)
    (hcur : (∃ y, m.current = some y) ∨ m.current = c.sched.current ∧
      prev = c.sched.current) :
    Nested (Cpu.dispatch { c with stack := rest } m prev) := by
  have hstack (p : Pid) (hc : c.sched.current = some p) :
      Pending (c.disableCount p).toNat (c.sched.iDepth p).toNat rest :=
        (N.pending hc hs nofun).tail trivial
  unfold Cpu.dispatch
  split
  next heq =>
    have hsame : m.current = c.sched.current := by
      rcases hcur with ⟨y, hn⟩ | h
      · rcases hprev with rfl | rfl
        · cases hn.symm.trans heq
        · exact heq
      · exact h.1
    have hgone' (p : Pid) : Gone m p ↔ Gone c.sched p := by
      refine (hgone p).trans (or_iff_left fun ⟨h0, hp⟩ => ?_)
      rw [← hsame, heq, h0] at hp
      cases hp
    refine {
      sched := I
      idle := hidle
      alone := fun h => ?_
      stack := fun p h => ?_
      kesp := fun p h hg => ?_
      flag := fun p h => N.flag p (hsame.symm.trans h) }
    · obtain ⟨hoff, ⟨n, d, hp⟩, hq⟩ := N.alone (hsame.symm.trans h)
      rw [hs] at hp hq
      exact ⟨hoff, ⟨n, d, hp.tail trivial⟩, fun i hi => hq i (List.mem_cons_of_mem _ hi)⟩
    · dsimp only
      rw [hd]
      exact .inl (hstack p (hsame.symm.trans h))
    · dsimp only
      rw [hd]
      exact N.kesp p (fun he => h (hsame.trans he)) (mt (hgone' p).mpr hg)
  next hne =>
    split
    next hn =>
      rcases hcur with ⟨y, h⟩ | ⟨h, h'⟩
      · cases hn.symm.trans h
      · exact (hne (h.trans h'.symm)).elim
    next y hn =>
      have hrun : ¬Gone m y := I.current_not_gone hidle hn
      have hout : c.sched.current ≠ some y := by
        intro hc
        rcases hprev with rfl | rfl
        · exact hrun ((hgone y).mpr (.inr ⟨rfl, hc⟩))
        · exact hne (hn.trans hc.symm)
      have hnext := N.kesp y hout fun hg => hrun ((hgone y).mpr (.inl hg))
      refine {
        sched := I
        idle := hidle
        alone := fun h => ?_
        stack := fun p h => ?_
        kesp := fun p h hg => ?_
        flag := fun p h hon => ?_ }
      · cases hn.symm.trans h
      · obtain rfl : y = p := Option.some.inj (hn.symm.trans h)
        dsimp only
        rw [hd]
        exact .inl hnext
      · dsimp only
        rw [hd]
        have hg' : ¬Gone c.sched p := fun hp => hg ((hgone p).mpr (.inl hp))
        cases prev with
        | none => exact N.kesp p (fun hc => hg ((hgone p).mpr (.inr ⟨rfl, hc⟩))) hg'
        | some q =>
          have hq : c.sched.current = some q := (hprev.resolve_left nofun).symm
          dsimp only
          rcases decEq p q with hpq | rfl
          · rw [Function.update_of_ne hpq]
            exact N.kesp p (fun hc => hpq (Option.some.inj (hc.symm.trans hq))) hg'
          · rw [Function.update_self]
            exact hstack p hq
      · obtain rfl : y = p := Option.some.inj (hn.symm.trans h)
        exact of_decide_eq_true hon

/-- A turn that goes well, or blocks where it must not. -/
def Sound : Except Panic Cpu → Prop
  | .ok c => c.Fits → Nested c
  | .error e => e = .blocking

theorem disable_stack : c.disable.stack = c.stack := by
  unfold Cpu.disable
  split
  · rfl
  · rfl

theorem schedule (N : Nested c) (op : Op) (hs : c.stack = i :: rest) (hi : i ≠ .startIrq)
    (ha : op.Allowed c.sched) (hop : ∀ m, op.exec c.sched = some m → Aside c.sched m ∧
      m.current = c.sched.current) (hr : Refill (i :: rest) (l ++ rest)) :
    Sound (Cpu.schedule { c with stack := rest } op l) := by
  unfold Cpu.schedule
  dsimp only
  cases h : op.exec c.sched with
  | none => exact rfl
  | some m => exact fun _ => N.refill hs hi (N.sched.step ⟨ha, h⟩) (hop m h).1 (hop m h).2 hr

/-- The process leaves by `yield`, `down` or `sleepUntil`. -/
theorem switch (N : Nested c) {k : Leaving} (hs : c.stack = .switch k :: rest)
    (ha : k.op.Allowed c.sched) (hop : k.op.exec c.sched = some m) (A : Aside c.sched m)
    (hcur : (∃ y, m.current = some y) ∨ m.current = c.sched.current) :
    Nested (Cpu.dispatch { c with stack := rest } m c.sched.current) := by
  refine N.dispatch hs (N.sched.step ⟨ha, hop⟩) A.iDepth (.inr rfl) (fun p => ?_)
    (N.idle_aside A)
    (hcur.imp_right fun h => ⟨h, rfl⟩)
  exact (A.gone p).trans (or_iff_left fun ⟨hn, hp⟩ => nomatch hn.symm.trans hp).symm

/-- The process leaves by `exit`, and its stack is lost. -/
theorem switch_exit (N : Nested c) (hs : c.stack = .switch .exit :: rest)
    (ha : c.sched.current ≠ c.sched.idleProcess) (hop : c.sched.exit = some m) :
    Nested (Cpu.dispatch { c with stack := rest } m none) := by
  have I := N.sched.exit hop
  unfold Machine.exit at hop
  split at hop
  next hc =>
    cases hop
    exact N.dispatch hs I rfl (.inl rfl)
      (fun p => (or_iff_left fun ⟨_, hp⟩ => nomatch hc.symm.trans hp).symm) N.idle
      (.inr ⟨rfl, hc.symm⟩)
  next me hc =>
    have A := Aside.yield hop
    have hgone (p : Pid) : Gone m p ↔ Gone c.sched p ∨ p = me := by
      rw [A.gone, Gone, Gone, List.mem_append, List.mem_singleton]
      exact or_right_comm
    have hme : me < c.sched.nextId := N.sched.fresh me (N.sched.current_started hc)
    refine N.dispatch hs I A.iDepth (.inl rfl) (fun p => ?_) (fun p hp hg => ?_)
      (.inl (yield_current hop))
    · rw [hgone, hc, Option.some.injEq, eq_comm (a := me)]
      exact or_congr_right (and_iff_right rfl).symm
    · rcases A.new p hp with hp | ⟨-, hp⟩
      · rcases (hgone p).mp hg with hg | rfl
        · exact N.idle p hp hg
        · exact ha (hc.trans hp.symm)
      · rcases (hgone p).mp hg with hg | rfl
        · exact Nat.not_lt_of_le hp (N.sched.fresh p (N.sched.gone_started hg))
        · exact Nat.not_lt_of_le hp hme

/-- What the head of the stack does is sound. -/
theorem exec (N : Nested c) (hs : c.stack = i :: rest) (ha : i.Allowed c.sched) :
    Sound (i.exec { c with stack := rest }) := by
  have hpush (hp : i.Plain) {l : List Instr} (hl : Balanced l) :
      Nested { c with stack := l ++ rest } :=
    N.restack hs (fun hi => (hi ▸ hp : Instr.Plain .startIrq)) (.push hp hl)
  cases i with
  | body => exact fun _ => hpush trivial .nil
  | call f => exact fun _ => hpush trivial f.balanced
  | disable =>
    intro hf
    refine N.disable hs ?_
    rw [Cpu.Fits, disable_stack] at hf
    exact hf
  | enable =>
    obtain ⟨c', h, hN⟩ := N.enable hs
    rw [Instr.exec, h]
    exact fun _ => hN
  | construct =>
    refine N.schedule .construct hs (by simp) trivial (fun m h => ?_) (.push trivial .nil)
    cases h
    exact ⟨.of_eq rfl rfl rfl (Nat.le_succ _) rfl, rfl⟩
  | boot =>
    refine N.schedule .boot hs (by simp) ha (fun m h => ?_) (.push trivial .nil)
    cases h
    exact ⟨.newIdleProcess ha, makeReady_current⟩
  | start p =>
    refine N.schedule (.start p) hs (by simp) ha (fun m h => ?_) (.push trivial .nil)
    cases h
    exact ⟨.start, makeReady_current⟩
  | leave =>
    dsimp only [Instr.exec]
    split
    · exact fun _ => hpush trivial .nil
    · exact fun _ => hpush trivial .makeReady
  | switch k =>
    dsimp only [Instr.exec]
    cases h : k.op.exec c.sched with
    | none => exact rfl
    | some m =>
      intro _
      cases k with
      | yield => exact N.switch hs trivial h (.yield h) (.inl (yield_current h))
      | down s => exact N.switch hs trivial h (.down h) (down_current h)
      | sleepUntil second => exact N.switch hs trivial h (.sleepUntil h) (sleepUntil_current h)
      | exit => exact N.switch_exit hs ha h
  | down s =>
    dsimp only [Instr.exec]
    split
    next h0 =>
      split
      · exact rfl
      · exact fun _ => hpush trivial (.block _)
    next h0 =>
      refine N.schedule (.down s) hs (by simp) trivial (fun m h => ⟨.down h, ?_⟩)
        (.push trivial .nil)
      have hdown : c.sched.down s = some m := h
      rw [Machine.down, if_neg h0] at hdown
      cases hdown
      rfl
  | up s =>
    refine N.schedule (.up s) hs (by simp) trivial (fun m h => ?_) (.push trivial ?_)
    · cases h
      exact ⟨.up, up_current⟩
    · split
      · exact .nil
      · exact .makeReady
  | sleepUntil second =>
    dsimp only [Instr.exec]
    split
    · exact fun _ => hpush trivial (.block _)
    · exact fun _ => hpush trivial .nil
  | reap =>
    dsimp only [Instr.exec]
    split
    · exact fun _ => N.restack hs (by simp) .reap
    · refine N.schedule .checkReaper hs (by simp) trivial (fun m h => ?_) .reapOne
      cases h
      refine ⟨.checkReaper, ?_⟩
      unfold Machine.checkReaper
      split
      · rfl
      · rfl
  | tick =>
    refine N.schedule .tick hs (by simp) trivial (fun m h => ?_) (.push trivial (.wake _))
    cases h
    exact handler_spec
  | startIrq =>
    obtain ⟨c', h, hN⟩ := N.startIrq hs
    rw [Instr.exec, h]
    exact fun _ => hN
  | endIrq =>
    obtain ⟨c', h, hN⟩ := N.endIrq hs
    rw [Instr.exec, h]
    exact fun _ => hN
  | iret => exact fun _ => N.iret hs

/-- An interrupt is taken. -/
theorem irq {irq : Nat} (N : Nested c) (hon : c.interrupts = true) :
    Nested { c with interrupts := false, stack := picIrq irq ++ c.stack } where
  sched := N.sched
  idle := N.idle
  alone h := nomatch (N.alone h).1.symm.trans hon
  stack p h := by
    have h0 := N.flag p h hon
    rcases N.stack p h with hp | ⟨hoff, -⟩
    · dsimp only
      rw [h0] at hp ⊢
      have hd : (c.sched.iDepth p).toNat = 0 := Nat.eq_zero_of_le_zero hp.le
      rw [hd] at hp ⊢
      exact .inr ⟨rfl, hp.picIrq⟩
    · exact nomatch hoff.symm.trans hon
  kesp := N.kesp
  flag p h := nofun

theorem move (N : Nested c) {t : Move} (ha : t.Allowed c) : Sound (t.exec c) := by
  cases t with
  | next =>
    obtain ⟨i, hi, ha⟩ := ha
    obtain ⟨rest, hs⟩ : ∃ rest, c.stack = i :: rest := List.head?_eq_some_iff.mp hi
    have hexec := N.exec hs ha
    rw [Move.exec, hs]
    exact hexec
  | call f =>
    obtain ⟨rest, hs⟩ : ∃ rest, c.stack = .body :: rest := List.head?_eq_some_iff.mp ha
    refine fun _ => N.restack hs nofun ?_
    rw [hs]
    refine ⟨fun n d hp => .plain trivial hp, fun hq j hj => ?_⟩
    rcases List.mem_cons.mp hj with rfl | hj
    · exact not_false
    · exact hq j hj
  | irq n => exact fun _ => N.irq ha

theorem boot {count : Nat → Int32} {hz : UInt32} {state : Pid → State} :
    Nested (Cpu.boot count hz state) where
  sched := .init count hz state
  idle _ := nofun
  alone _ := by
    have hplain : ∀ i ∈ kernelMain, i.Plain ∧ ¬i.Irq := by
      intro i hi
      simp only [kernelMain, List.mem_cons, List.not_mem_nil, or_false] at hi
      rcases hi with rfl | rfl | rfl | rfl
      all_goals exact ⟨trivial, not_false⟩
    refine ⟨rfl, ⟨0, 0, ?_⟩, fun i hi => (hplain i hi).2⟩
    exact .plain trivial (.plain trivial (.plain trivial (.plain trivial .nil)))
  stack _ := nofun
  kesp _ _ _ := .plain trivial (.plain trivial (.plain trivial .nil))
  flag _ := nofun

theorem step {t : Move} (N : Nested c) (h : c.Step t c') : Nested c' := by
  have hs := N.move h.1
  rw [h.2.1] at hs
  exact hs h.2.2

end Nested

section

variable {count : Nat → Int32} {hz : UInt32} {state : Pid → State} {ts ts' : List Move}

theorem nested (h : Run Cpu.Step (Cpu.boot count hz state) ts c) : Nested c :=
  h.inv (fun _ _ _ N h => N.step h) .boot

theorem next_step {t : Move} (h : c.next t = some c') : c.Step t c' := by
  unfold Cpu.next at h
  split at h
  next c₁ he =>
    obtain ⟨⟨ha, hf⟩, rfl⟩ : (t.Allowed c ∧ c₁.Fits) ∧ c₁ = c' := by simpa using h
    exact ⟨ha, he, hf⟩
  · cases h

/-- Init makes a process and starts it; then it calls `yield`. -/
def startOne : List Move :=
  List.replicate 18 .next ++ [.call .construct, .next, .next] ++
    [.call (.start 2), .next, .next, .next, .next] ++
    [.call .yield]

/-- The other process runs, and an interrupt brings Init back. -/
def interruptOne : List Move := List.replicate 6 .next ++ [.irq 1] ++ List.replicate 12 .next

theorem interruptOne_run :
    ∃ c c', Run Cpu.Step (Cpu.boot (fun _ => 1) 100 fun _ => .READY) startOne c ∧
    Run Cpu.Step c interruptOne c' ∧
    (c.sched.current = some 0 ∧ c.stack = [.call .yield, .body, .call .exit]) ∧
    c'.sched.current = some 0 ∧ c'.stack = [.body, .call .exit] := by
  have hcheck :
      ((startOne.foldlM Cpu.next (Cpu.boot (fun _ => 1) 100 fun _ => .READY)).bind fun c =>
      (interruptOne.foldlM Cpu.next c).map fun c' => decide
        ((c.sched.current = some 0 ∧ c.stack = [.call .yield, .body, .call .exit]) ∧
          c'.sched.current = some 0 ∧ c'.stack = [.body, .call .exit])) = some true := by
    decide +kernel
  obtain ⟨c, hc, hcheck⟩ := Option.bind_eq_some_iff.mp hcheck
  obtain ⟨c', hc', hcheck⟩ := Option.map_eq_some_iff.mp hcheck
  exact ⟨c, c', .of_foldlM (fun _ _ _ => next_step) hc, .of_foldlM (fun _ _ _ => next_step) hc',
    of_decide_eq_true hcheck⟩

/-- **Interrupts are on only over a count of 0.** In every state of every run: if interrupts are on,
then a process runs, its count is 0 and it is in no interrupt; and whatever is next, the only panics
are those of processes that must not block. `enable`, `startIrq` and `endIrq` do not panic. -/
theorem interrupts_nest (h : Run Cpu.Step (Cpu.boot count hz state) ts c) :
    (c.interrupts = true → ∃ p, c.sched.current = some p ∧ c.disableCount p = 0 ∧
      c.sched.iDepth p = 0) ∧
      ∀ t : Move, t.Allowed c → ∀ e, t.exec c = .error e → e = .blocking := by
  have N := nested h
  refine ⟨fun hon => ?_, fun t ha e he => ?_⟩
  · cases hc : c.sched.current with
    | none => exact nomatch (N.alone hc).1.symm.trans hon
    | some p =>
      have h0 := N.flag p hc hon
      rcases N.stack p hc with hp | ⟨hoff, -⟩
      · rw [h0] at hp
        exact ⟨p, rfl, h0, UInt32.toNat_inj.mp (Nat.eq_zero_of_le_zero hp.le)⟩
      · exact nomatch hoff.symm.trans hon
  · have hs := N.move ha
    rw [he] at hs
    exact hs

theorem interrupts_nest_yield : ∃ c : Cpu, c.sched.current = some 0 ∧
    ((c.interrupts = true → ∃ p, c.sched.current = some p ∧ c.disableCount p = 0 ∧
      c.sched.iDepth p = 0) ∧
      ∀ t : Move, t.Allowed c → ∀ e, t.exec c = .error e → e = .blocking) := by
  obtain ⟨c, c', h, h', -, hc', -⟩ := interruptOne_run
  exact ⟨c', hc', interrupts_nest (h.trans h')⟩

/-- **A call leaves the count as it finds it.** Whenever the caller runs again with what was below
the call on its stack, however many others ran and were interrupted in between, its count and its
depth are those of the call. -/
theorem call_restores_disableCount {f : Call} (h : Run Cpu.Step (Cpu.boot count hz state) ts c)
    (h' : Run Cpu.Step c ts' c') (hc : c.sched.current = some p) (hs : c.stack = .call f :: rest)
    (hc' : c'.sched.current = some p) (hs' : c'.stack = rest) :
    c'.disableCount p = c.disableCount p ∧ c'.sched.iDepth p = c.sched.iDepth p := by
  have hp : Pending (c.disableCount p).toNat (c.sched.iDepth p).toNat rest :=
    ((nested h).pending hc hs nofun).tail trivial
  have hp' : Pending (c'.disableCount p).toNat (c'.sched.iDepth p).toNat rest := by
    rcases (nested (h.trans h')).stack p hc' with hp' | ⟨-, -, -, t, ht, -⟩
    · rwa [hs'] at hp'
    · rw [hs'] at ht
      subst ht
      generalize (c.disableCount p).toNat = k, (c.sched.iDepth p).toNat = e at hp
      cases hp with
      | plain hi => exact hi.elim
  obtain ⟨hn, hd⟩ := hp'.unique hp
  exact ⟨UInt32.toNat_inj.mp hn, UInt32.toNat_inj.mp hd⟩

/-- Init's `yield`. -/
theorem call_restores_disableCount_yield : ∃ c c' :
    Cpu, c.sched.current = some 0 ∧ c'.sched.current = some 0 ∧
    c'.disableCount 0 = c.disableCount 0 ∧ c'.sched.iDepth 0 = c.sched.iDepth 0 := by
  obtain ⟨c, c', h, h', ⟨hc, hs⟩, hc', hs'⟩ := interruptOne_run
  exact ⟨c, c', hc, hc', call_restores_disableCount h h' hc hs hc' hs'⟩

end

end K439.Sched
