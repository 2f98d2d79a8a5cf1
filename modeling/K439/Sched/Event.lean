import K439.Sched.Program
import Mathlib.Data.List.Infix

/-!
# Events

`Event` and the join of a child. `signal` leaves one unit, which every `wait` takes and gives back:
the processes pass it on from one to the next, and when none is between its `down` and its `up` it
is in the count. `exit` stores the exit code before it signals, so who has waited finds it.
-/

namespace K439.Sched.Event

/-- The exit code of the child, `none` before it is set; how many `wait`s have returned, and what
the joins have returned. -/
structure Exit where
  exitCode : Option Int32
  returned : Nat
  joined : List (Option Int32)

inductive Act
  | setExitCode (code : Int32)
  /-- a `wait` returns -/
  | ret
  /-- `long code = proc->exitCode;` -/
  | readExitCode

def act : Act → Exit → Exit
  | .setExitCode code, d => { d with exitCode := some code }
  | .ret, d => { d with returned := d.returned + 1 }
  | .readExitCode, d => { d with joined := d.joined ++ [d.exitCode] }

/-- The one semaphore of the event is `status`. -/
abbrev Program := List (Action Unit Act)

def signal : Program := [.up ()]

def wait : Program := [.down (), .up (), .act .ret]

/-- `proc->doneEvent.wait(); long code = proc->exitCode;` -/
def join : Program := [.down (), .up (), .act .readExitCode]

/-- `p->exitCode = exitCode;` and `p->doneEvent.signal();` -/
def exit (code : Int32) : Program := .act (.setExitCode code) :: signal

/-- The calls of other processes. -/
def Waits (prog : Program) : Prop := prog = wait ∨ prog = join

abbrev State := Threads Unit Act Exit

/-- The child is to exit. -/
def init (child : Pid) (code : Int32) : State where
  sems _ := { count := 0, waiting := [] }
  rest := Function.update (fun _ => []) child (exit code)
  data := { exitCode := none, returned := 0, joined := [] }

/-- The event is not signalled yet. -/
def Pending (child : Pid) (code : Int32) (s : State) : Prop :=
  s.rest child = exit code ∨ s.rest child = signal

/-- A process is between its `down` and its `up`. -/
def Between (s : State) (p : Pid) : Prop := ∃ rest, s.rest p = .up () :: rest

structure Latched (child : Pid) (code : Int32) (s : State) : Prop where
  before : Pending child code s → s.data.returned = 0 ∧ s.data.joined = []
  after : ¬Pending child code s → (∀ p, ¬Between s p) →
    (s.sems ()).count = 1 ∧ (s.sems ()).waiting = []
  joined : ∀ x ∈ s.data.joined, x = some code

variable {child p : Pid} {code : Int32} {T : Finset Pid} {s s' : State}

def weightOf : Action Unit Act → Int
  | .down _ => -1
  | .up _ => 1
  | .act _ => 0

theorem accounts : Accounts act () weightOf fun _ => 0 where
  down := rfl
  up := rfl
  other_down _ hy := absurd rfl hy
  other_up _ hy := absurd rfl hy
  act _ _ := rfl

/-- The programs, with that of the child. -/
def Runs (code : Int32) (prog : Program) : Prop := Waits prog ∨ prog = exit code

/-- Nobody has waited to the end, and nobody is behind a `down`. -/
structure Untouched (child : Pid) (s : State) : Prop where
  returned : s.data.returned = 0
  joined : s.data.joined = []
  others : ∀ p, p ≠ child → s.rest p = [] ∨ Waits (s.rest p)

structure Inv (child : Pid) (code : Int32) (T : Finset Pid) (s : State) : Prop where
  threads : s.Inv T (Runs code)
  unit : s.balance T () weightOf (fun _ => 0) = 1
  others : ∀ p, p ≠ child → Ends Waits (s.rest p)
  phase : (s.rest child = exit code ∧ Untouched child s) ∨
    (s.rest child = signal ∧ s.data.exitCode = some code ∧ Untouched child s) ∨
    (Ends Waits (s.rest child) ∧ s.data.exitCode = some code)
  joined : ∀ x ∈ s.data.joined, x = some code

theorem weight_nonneg {l : Program} (h : Ends (Runs code) l) : 0 ≤ weight weightOf l := by
  rcases h with rfl | ⟨prog, (rfl | rfl) | rfl, hs⟩
  · exact Int.le_refl 0
  · simp only [wait, List.suffix_cons_iff, List.suffix_nil] at hs
    rcases hs with rfl | rfl | rfl | rfl
    all_goals simp [weightOf]
  · simp only [join, List.suffix_cons_iff, List.suffix_nil] at hs
    rcases hs with rfl | rfl | rfl | rfl
    all_goals simp [weightOf]
  · simp only [exit, signal, List.suffix_cons_iff, List.suffix_nil] at hs
    rcases hs with rfl | rfl | rfl
    all_goals simp [weightOf]

/-- Who is not behind a `down` has no unit. -/
theorem weight_eq_zero {l : Program} (h : Ends Waits l) (hup : ∀ rest, l ≠ .up () :: rest) :
    weight weightOf l = 0 := by
  rcases h with rfl | ⟨prog, rfl | rfl, hs⟩
  · rfl
  · simp only [wait, List.suffix_cons_iff, List.suffix_nil] at hs
    rcases hs with rfl | rfl | rfl | rfl
    · rfl
    · exact absurd rfl (hup _)
    · rfl
    · rfl
  · simp only [join, List.suffix_cons_iff, List.suffix_nil] at hs
    rcases hs with rfl | rfl | rfl | rfl
    · rfl
    · exact absurd rfl (hup _)
    · rfl
    · rfl

/-- Who waits does not set the exit code. -/
theorem ends_act {a : Act} {l : Program} (h : Ends Waits (.act a :: l)) :
    a = .ret ∨ a = .readExitCode := by
  rcases h with h | ⟨prog, rfl | rfl, hs⟩
  · cases h
  · simp only [wait, List.suffix_cons_iff, List.suffix_nil, List.cons.injEq, reduceCtorEq,
      false_and, false_or, or_false, Action.act.injEq] at hs
    exact .inl hs.1
  · simp only [join, List.suffix_cons_iff, List.suffix_nil, List.cons.injEq, reduceCtorEq,
      false_and, false_or, or_false, Action.act.injEq] at hs
    exact .inr hs.1

/-- The child does nothing of a `wait` before it has signalled. -/
theorem not_pending (h : Ends Waits (s.rest child)) : ¬Pending child code s := by
  rintro (hp | hp)
  · rw [hp] at h
    rcases ends_act h with h | h <;> cases h
  · rw [hp] at h
    rcases h with h | ⟨prog, rfl | rfl, hs⟩
    · cases h
    · simp [wait, signal, List.suffix_cons_iff] at hs
    · simp [join, signal, List.suffix_cons_iff] at hs

namespace Inv

theorem count_nonneg (I : Inv child code T s) : 0 ≤ (s.sems ()).count.toInt :=
  Int32.le_iff_toInt_le.mp (I.threads.sound ()).count

theorem count_le (I : Inv child code T s) (hp : p ∈ T) :
    (s.sems ()).count.toInt + weight weightOf (s.rest p) ≤ 1 := by
  have hle := le_account (T := T) (fun q => weight_nonneg (I.threads.ends q)) hp
  have hunit := I.unit
  simp only [Threads.balance] at hunit
  omega

/-- As long as the event is not signalled, the others block. -/
theorem next_untouched (I : Inv child code T s) (hpend : Pending child code s)
    (hu : Untouched child s) (hp : p ≠ child) (h : s.next act p = some s') : s'.rest = s.rest ∧
    s'.data = s.data := by
  have hchild : child ∈ T ∧ weight weightOf (s.rest child) = 1 := by
    rcases hpend with hc | hc
    · exact ⟨I.threads.mem hc, by rw [hc]; rfl⟩
    · exact ⟨I.threads.mem hc, by rw [hc]; rfl⟩
  have hle := I.count_le hchild.1
  have hc := I.count_nonneg
  rw [hchild.2] at hle
  have h0 : (s.sems ()).count = 0 := Int32.toInt_inj.mp (show _ = 0 by omega)
  have hdown : ∀ a rest, s.rest p = a :: rest → a = .down () := by
    intro a rest hr
    rcases hu.others p hp with hn | hw | hw
    · rw [hn] at hr; cases hr
    · rw [hw] at hr; cases hr; rfl
    · rw [hw] at hr; cases hr; rfl
  cases Threads.does h with
  | block => exact ⟨rfl, rfl⟩
  | take hr h1 => exact absurd h0 h1
  | raise hr => cases hdown _ _ hr
  | hand hr => cases hdown _ _ hr
  | act hr => cases hdown _ _ hr

theorem room (I : Inv child code T s) {x : Unit} {rest : Program} (hr : s.rest p = .up x :: rest) :
    (s.sems x).count ≠ 2147483647 := by
  intro heq
  have hle := I.count_le (I.threads.mem hr)
  have hw := weight_nonneg (hr ▸ I.threads.ends p).tail
  rw [hr, weight_cons, weightOf, heq] at hle
  have hint : (2147483647 : Int32).toInt = 2147483647 := rfl
  omega

/-- What a step makes of the phase and of what the joins return. -/
theorem phase_next (I : Inv child code T s) (h : s.next act p = some s') :
    ((s'.rest child = exit code ∧ Untouched child s') ∨
      (s'.rest child = signal ∧ s'.data.exitCode = some code ∧ Untouched child s') ∨
      (Ends Waits (s'.rest child) ∧ s'.data.exitCode = some code)) ∧
    ∀ x ∈ s'.data.joined, x = some code := by
  rcases I.phase with ⟨hc, hu⟩ | ⟨hc, hcode, hu⟩ | ⟨hends, hcode⟩
  · rcases Nat.decEq p child with hne | rfl
    · obtain ⟨hrest, hdata⟩ := I.next_untouched (.inl hc) hu hne h
      rw [hrest, hdata]
      exact ⟨.inl ⟨hc, hdata ▸ hu.returned, hdata ▸ hu.joined, hrest ▸ hu.others⟩,
        I.joined⟩
    · cases Threads.does h with
      | act hr =>
        cases hc.symm.trans hr
        refine ⟨.inr (.inl ⟨Function.update_self .., rfl, hu.returned, hu.joined,
          fun q hq => ?_⟩), I.joined⟩
        dsimp only
        rw [Function.update_of_ne hq]
        exact hu.others q hq
      | block hr => cases hc.symm.trans hr
      | take hr => cases hc.symm.trans hr
      | raise hr => cases hc.symm.trans hr
      | hand hr => cases hc.symm.trans hr
  · rcases Nat.decEq p child with hne | rfl
    · obtain ⟨hrest, hdata⟩ := I.next_untouched (.inr hc) hu hne h
      rw [hrest, hdata]
      exact ⟨.inr (.inl ⟨hc, hcode, hdata ▸ hu.returned, hdata ▸ hu.joined,
        hrest ▸ hu.others⟩), I.joined⟩
    · -- the child signals
      cases Threads.does h with
      | raise hr =>
        cases hc.symm.trans hr
        exact ⟨.inr (.inr ⟨.inl (Function.update_self ..), hcode⟩), I.joined⟩
      | hand hr hw =>
        cases hc.symm.trans hr
        have hne := (I.threads.handed hr hw).1
        refine ⟨.inr (.inr ⟨.inl ?_, hcode⟩), I.joined⟩
        exact (Function.update_of_ne (Ne.symm hne) ..).trans (Function.update_self ..)
      | block hr => cases hc.symm.trans hr
      | take hr => cases hc.symm.trans hr
      | act hr => cases hc.symm.trans hr
  · have hends' : Ends Waits (s'.rest child) := by
      rcases I.threads.rest_next h child with h | ⟨a, h⟩
      · rw [h]; exact hends
      · rw [h] at hends; exact hends.tail
    have hp : Ends Waits (s.rest p) := by
      rcases Nat.decEq p child with hne | rfl
      · exact I.others p hne
      · exact hends
    rcases Threads.data_next h with hd | ⟨a, rest, hr, hd⟩
    · rw [hd]
      exact ⟨.inr (.inr ⟨hends', hcode⟩), I.joined⟩
    · rw [hd]
      rcases ends_act (hr ▸ hp) with rfl | rfl
      · exact ⟨.inr (.inr ⟨hends', hcode⟩), I.joined⟩
      · refine ⟨.inr (.inr ⟨hends', hcode⟩), fun x hx => ?_⟩
        rcases List.mem_append.mp hx with hx | hx
        · exact I.joined x hx
        · exact (List.mem_singleton.mp hx).trans hcode

theorem next (I : Inv child code T s) (h : s.next act p = some s') : Inv child code T s' := by
  have hroom : ∀ x rest, s.rest p = .up x :: rest → (s.sems x).waiting = [] →
      (s.sems x).count ≠ 2147483647 := fun x rest hr _ => I.room hr
  have hothers : ∀ q, q ≠ child → Ends Waits (s'.rest q) := by
    intro q hq
    have hw := I.others q hq
    rcases I.threads.rest_next h q with h | ⟨a, h⟩
    · rw [h]; exact hw
    · rw [h] at hw; exact hw.tail
  obtain ⟨hphase, hjoined⟩ := I.phase_next h
  exact ⟨I.threads.step hroom h, (accounts.step I.threads hroom h).trans I.unit, hothers,
    hphase, hjoined⟩

theorem weight_call {prog : Program} (h : Waits prog) : weight weightOf prog = 0 := by
  rcases h with rfl | rfl <;> rfl

theorem call {prog : Program} (I : Inv child code T s) (hp : p ∈ T) (hcall : Waits prog)
    (hr : s.rest p = []) : Inv child code T { s with rest := Function.update s.rest p prog } := by
  have hends : Ends Waits prog := .inr ⟨prog, hcall, List.suffix_refl _⟩
  have hwaits (q : Pid) (h : Ends Waits (s.rest q)) :
      Ends Waits (Function.update s.rest p prog q) := by
    rcases Nat.decEq q p with hne | rfl
    · rw [Function.update_of_ne hne]; exact h
    · rw [Function.update_self]; exact hends
  have hpend (l : Program) (h : s.rest child = l) (hl : l ≠ []) (hu : Untouched child s) :
      Function.update s.rest p prog child = l ∧
        Untouched child { s with rest := Function.update s.rest p prog } := by
    have hne : child ≠ p := by
      rintro rfl
      exact hl (h.symm.trans hr)
    refine ⟨(Function.update_of_ne hne ..).trans h, hu.returned, hu.joined, fun q hq => ?_⟩
    dsimp only
    rcases Nat.decEq q p with hqp | rfl
    · rw [Function.update_of_ne hqp]; exact hu.others q hq
    · rw [Function.update_self]; exact .inr hcall
  refine ⟨I.threads.call hp (.inl hcall) hr,
    (Accounts.call hp hr (weight_call hcall)).trans I.unit,
    fun q hq => hwaits q (I.others q hq), ?_, I.joined⟩
  rcases I.phase with ⟨hc, hu⟩ | ⟨hc, hcode, hu⟩ | ⟨hends, hcode⟩
  · exact .inl (hpend _ hc (by simp [exit]) hu)
  · obtain ⟨hc, hu⟩ := hpend _ hc (by simp [signal]) hu
    exact .inr (.inl ⟨hc, hcode, hu⟩)
  · exact .inr (.inr ⟨hwaits child hends, hcode⟩)

theorem init (hchild : child ∈ T) (code : Int32) : Inv child code T (Event.init child code) := by
  have hrest (q : Pid) (hq : q ≠ child) : (Event.init child code).rest q = [] := by
    exact Function.update_of_ne hq (exit code) fun _ => []
  have hown : (Event.init child code).rest child = exit code := by
    exact Function.update_self child (exit code) fun _ => []
  refine ⟨⟨fun x => ⟨Int32.le_refl 0, fun h => absurd rfl h⟩, fun x p hp => ?_,
    fun x => List.nodup_nil,
    fun p => ?_, fun p hp => ?_⟩, ?_, fun q hq => .inl (hrest q hq), ?_, fun x hx => ?_⟩
  · cases hp
  · rcases Nat.decEq p child with hne | rfl
    · exact .inl (hrest p hne)
    · exact .inr ⟨_, .inr rfl, by rw [hown]⟩
  · exact hrest p (ne_of_mem_of_not_mem hchild hp).symm
  · have hzero : account T (weight weightOf) (fun _ : Pid => ([] : Program)) = 0 :=
      account_eq_zero fun _ _ => rfl
    rw [Threads.balance, Event.init, account_update hchild, hzero]
    rfl
  · exact .inl ⟨hown, rfl, rfl, fun p hp => .inl (hrest p hp)⟩
  · cases hx

theorem latched (I : Inv child code T s) : Latched child code s where
  before hp := by
    rcases I.phase with ⟨-, hu⟩ | ⟨-, -, hu⟩ | ⟨hends, -⟩
    · exact ⟨hu.returned, hu.joined⟩
    · exact ⟨hu.returned, hu.joined⟩
    · exact absurd hp (not_pending hends)
  after hp hb := by
    have hends : ∀ q, Ends Waits (s.rest q) := by
      intro q
      rcases I.phase with ⟨hc, -⟩ | ⟨hc, -, -⟩ | ⟨hends, -⟩
      · exact absurd (.inl hc) hp
      · exact absurd (.inr hc) hp
      · rcases Nat.decEq q child with hne | rfl
        · exact I.others q hne
        · exact hends
    have hzero : account T (weight weightOf) s.rest = 0 :=
      account_eq_zero fun q _ => weight_eq_zero (hends q) fun rest h => hb q ⟨rest, h⟩
    have hunit := I.unit
    rw [Threads.balance, hzero] at hunit
    have hcount : (s.sems ()).count = 1 := Int32.toInt_inj.mp (show _ = 1 by omega)
    refine ⟨hcount, ?_⟩
    by_contra hw
    rw [(I.threads.sound ()).waiting hw] at hcount
    exact absurd hcount (by decide)
  joined := I.joined

end Inv

/-- **The event is a latch, and a join returns the exit code**, in every state of every run. -/
theorem event_latched {es : List (Turn Unit Act)} (hchild : child ∈ T)
    (h : Run (Threads.Step act T Waits) (init child code) es s) : Latched child code s := by
  have I : Inv child code T s := by
    refine h.inv (fun s e s' I h => ?_) (Inv.init hchild code)
    cases e with
    | call p prog =>
      obtain ⟨hp, hcall, hr, rfl⟩ := h
      exact I.call hp hcall hr
    | step p => exact I.next h
  exact I.latched

/-- The parent joins before the child exits, and another process waits. -/
theorem event_latched_join : ∃ s :
    State, s.data.joined = [some 7] ∧ s.data.returned = 1 ∧ Latched 0 7 s := by
  have hrun : ([.call 1 join, .step 1, .call 2 wait, .step 2, .step 0, .step 0, .step 1,
      .step 2, .step 1, .step 2].foldlM (Threads.exec act)
        (init 0 7)).map (fun s => (s.data.joined, s.data.returned)) =
        some ([some 7], 1) := by
    decide +kernel
  obtain ⟨s, hs, he⟩ := Option.map_eq_some_iff.mp hrun
  have h := Threads.run_of_exec (T := {0, 1, 2}) (P := Waits) (fun p prog h => ?_) hs
  · exact ⟨s, congrArg Prod.fst he, congrArg Prod.snd he, event_latched (by decide) h⟩
  · simp only [List.mem_cons, Turn.call.injEq, reduceCtorEq, List.not_mem_nil, or_false,
      false_or] at h
    rcases h with ⟨rfl, rfl⟩ | ⟨rfl, rfl⟩
    · exact ⟨by simp, .inr rfl⟩
    · exact ⟨by simp, .inl rfl⟩

end K439.Sched.Event
