import K439.Sched.Semaphore
import K439.Table.Frames

/-!
# Joining a child

`exit` stores the exit code and signals the event of the process; `join` waits for the event, reads
the code and closes the slot. Only processes that are done raise their events, so who is behind
`down` reads the code of a child that has called `exit`, and the slot keeps the child until then.
-/

namespace K439.Table

open Sched (Pid)

variable {m m' : Machine} {p q c : Pid} {i : Nat} {e : Event} {es : List Event}

namespace Machine

/-- The event of a process is signalled when it is done, and nobody is behind `down` before. -/
structure Signals (m : Machine) : Prop where
  raised : ∀ c, (m.sched.sems (doneEvent c)).count ≠ 0 → (m.procs c).pc.done = true
  through : ∀ q c i, (m.procs q).pc = .waited c i →
    q ∉ (m.sched.sems (doneEvent c)).waiting →
    (m.procs c).pc.done = true

theorem doneEvent_ne (h : p ≠ q) : doneEvent p ≠ doneEvent q :=
  fun he => h (Nat.eq_of_mul_eq_mul_left Nat.two_pos he)

/-- The current process waits for nothing. -/
theorem Inv.not_waiting (I : m.Inv) (hq : m.sched.current = some q) (hq1 : q ≠ 1) (s : Nat) :
    q ∉ (m.sched.sems s).waiting := by
  intro hw
  have hni : m.sched.NotIdle q := fun h => hq1 (Option.some.inj (h.symm.trans I.rest.idle))
  have hcur : 0 < m.sched.cnt .current q := by
    rw [Sched.Machine.cnt, if_pos hq]
    exact Nat.one_pos
  have hwait : 0 < m.sched.cnt (.wait (.sem s)) q := List.count_pos_iff.mpr hw
  cases I.rest.sched.once.at_unique hni hcur hwait

namespace Signals

/-- The events stay as they are, and nobody goes on to wait. -/
theorem quiet (S : m.Signals) (hs : ∀ c, m'.sched.sems (doneEvent c) = m.sched.sems (doneEvent c))
    (hd : ∀ c, (m.procs c).pc.done = true → (m'.procs c).pc.done = true)
    (hw : ∀ q c i, (m'.procs q).pc = .waited c i → (m.procs q).pc = .waited c i) :
    m'.Signals where
  raised c h := hd c (S.raised c (hs c ▸ h))
  through q c i h hn := hd c (S.through q c i (hw q c i h) (hs c ▸ hn))

/-- `down` of the event of `c` by `q`. -/
theorem down (S : m.Signals)
    (hs : ∀ p ≠ c, m'.sched.sems (doneEvent p) = m.sched.sems (doneEvent p))
    (hc : m'.sched.sems (doneEvent c) = (m.sched.sems (doneEvent c)).down q)
    (hd : ∀ p, (m.procs p).pc.done = true → (m'.procs p).pc.done = true)
    (hq : ∀ p i, (m'.procs q).pc = .waited p i → p = c)
    (hw : ∀ a ≠ q, ∀ p i, (m'.procs a).pc = .waited p i → (m.procs a).pc = .waited p i) :
    m'.Signals where
  raised p h := by
    rcases decEq p c with hne | rfl
    · exact hd p (S.raised p (hs p hne ▸ h))
    · rw [hc] at h
      refine hd p (S.raised p fun h0 => h ?_)
      rw [Sched.Semaphore.down_block h0]
      exact h0
  through a p i h hn := by
    rcases decEq p c with hne | rfl
    · have hne' : a ≠ q := fun he => hne (hq p i (he ▸ h))
      exact hd p (S.through a p i (hw a hne' p i h) (hs p hne ▸ hn))
    · rw [hc] at hn
      rcases decEq a q with hne | rfl
      · refine hd p (S.through a p i (hw a hne p i h) fun ha => hn ?_)
        unfold Sched.Semaphore.down
        split
        · exact List.mem_append_left _ ha
        · exact ha
      · refine hd p (S.raised p fun h0 => hn ?_)
        rw [Sched.Semaphore.down_block h0]
        exact List.mem_append_right _ (List.mem_singleton_self a)

/-- `up` of the event of `c`, which is done. -/
theorem up (S : m.Signals)
    (hs : ∀ p ≠ c, m'.sched.sems (doneEvent p) = m.sched.sems (doneEvent p))
    (hc : (m'.procs c).pc.done = true)
    (hd : ∀ p, (m.procs p).pc.done = true → (m'.procs p).pc.done = true)
    (hw : ∀ a p i, (m'.procs a).pc = .waited p i → (m.procs a).pc = .waited p i) :
    m'.Signals where
  raised p h := by
    rcases decEq p c with hne | rfl
    · exact hd p (S.raised p (hs p hne ▸ h))
    · exact hc
  through a p i h hn := by
    rcases decEq p c with hne | rfl
    · exact hd p (S.through a p i (hw a p i h) (hs p hne ▸ hn))
    · exact hc

end Signals

/-! ## The events in a step -/

/-- The operations of others leave the events alone. -/
theorem scheduling_sems {op : Sched.Op} {s : Sched.Machine} (hop : scheduling op = true)
    (h : op.exec m.sched = some s) : s.sems (doneEvent c) = m.sched.sems (doneEvent c) := by
  have hstep : Sched.Step m.sched op s := by
    refine ⟨?_, h⟩
    cases op with
    | construct | start | boot | yieldOn | exit | checkReaper => cases hop
    | _ => trivial
  have hodd {k : Nat} (hk : scheduling (.down k) = true ∨ scheduling (.up k) = true) :
      k ≠ doneEvent c := by
    simp only [scheduling, decide_eq_true_eq, or_self] at hk
    unfold doneEvent
    omega
  cases hstep.semEffect (s := doneEvent c) (fun h => by rw [h] at hop; cases hop) with
  | other hd hu hx => exact hx
  | down hc hx => exact absurd rfl (hodd (.inl hop))
  | up hx => exact absurd rfl (hodd (.inr hop))

theorem exec_sems {c : Call} (h : c.exec m q = some m') : m'.sched.sems = m.sched.sems := by
  cases c with
  | exit code | semaphore =>
    cases h
    rfl
  | fork =>
    have hnew : m.newTable q = some m' := h
    unfold newTable at hnew
    split at hnew
    · cases hnew
      rfl
    · cases hnew
  | join i =>
    have hjoin : m.join q i = some m' := h
    unfold join at hjoin
    split at hjoin
    · cases hjoin
      rfl
    split at hjoin
    · cases hjoin
      rfl
    split at hjoin
    · cases hjoin
    · cases hjoin
      rfl
    · cases hjoin
      rfl
  | «open» found | execv found =>
    cases h
    split
    · rfl
    · rfl
  | close i =>
    cases h
    unfold close
    split
    · rfl
    split
    · rfl
    split
    · rfl
    · rfl
  | cd path =>
    cases path with
    | none =>
      cases h
      rfl
    | some found =>
      cases h
      split
      · rfl
      · rfl

theorem stepFrame_sems {frames : List Frame} {f : Frame} :
    (m.stepFrame q frames f).sched.sems = m.sched.sems := by
  cases f with
  | checkReaper =>
    rw [stepFrame]
    split
    · rfl
    · rw [setProc_sched, Sched.Machine.checkReaper]
      split <;> rfl
  | unref kill =>
    rw [stepFrame, unref_sched]
    rfl
  | destroy p i =>
    rw [stepFrame]
    split
    · rw [unref_sched]
      rfl
    · rfl
  | clearDestroyed p i => rfl

theorem copySlot_sched : (m.copySlot q c i).sched = m.sched := by
  unfold copySlot
  split <;> rfl

theorem openSlot_sched {r : Resource} : (m.openSlot q r).2.sched = m.sched := by
  unfold openSlot
  split <;> rfl

theorem down_sems_of_ne {s s' : Sched.Machine} {k l : Nat} (hl : l ≠ k) (h : s.down k = some s') :
    s'.sems l = s.sems l := by
  have hstep : Sched.Step s (.down k) s' := ⟨trivial, h⟩
  cases hstep.semEffect (s := l) nofun with
  | other hd hu hx => exact hx
  | down hc hx => exact absurd rfl hl

theorem down_sems_self {s s' : Sched.Machine} {k : Nat} (hq : s.current = some q)
    (h : s.down k = some s') : s'.sems k = (s.sems k).down q := by
  have hstep : Sched.Step s (.down k) s' := ⟨trivial, h⟩
  cases hstep.semEffect (s := k) nofun with
  | other hd hu hx => exact absurd rfl hd
  | down hc hx =>
    rcases decEq (s.sems k).count 0 with hne | h0
    · rw [hx, Sched.Semaphore.down_take hne, Sched.Semaphore.down_take hne]
    · rw [hx, Option.some.inj ((hc h0).symm.trans hq)]

theorem up_sems_of_ne {s : Sched.Machine} {k l : Nat} (hl : l ≠ k) :
    (s.up k).sems l = s.sems l := by
  have hstep : Sched.Step s (.up k) (s.up k) := ⟨trivial, rfl⟩
  cases hstep.semEffect (s := l) nofun with
  | other hd hu hx => exact hx
  | up hx => exact absurd rfl hl

/-- Only the two halves of a wait and `signal` touch the events. -/
theorem stepPc_sems {pc : Pc} (hwait : ∀ c i, pc ≠ .wait c i)
    (hwaited : ∀ c i, pc ≠ .waited c i) (hs : pc ≠ .signal) (h : m.stepPc q pc = some m') :
    m'.sched.sems = m.sched.sems := by
  cases pc with
  | new | user | exited => cases h
  | wait c i => exact absurd rfl (hwait c i)
  | waited c i => exact absurd rfl (hwaited c i)
  | signal => exact absurd rfl hs
  | addWorkingDir root | close i code =>
    cases h
    rw [unref_sched]
    rfl
  | setWorkingDir root => cases root <;> cases h <;> rfl
  | refRootDir | clear i rc | clearAll exit i | clearWorkingDir =>
    cases h
    rfl
  | forkMe c i =>
    cases h
    split
    · exact congrArg Sched.Machine.sems copySlot_sched
    · rfl
  | openChild c =>
    cases h
    exact congrArg Sched.Machine.sems openSlot_sched
  | startChild c id =>
    cases h
    exact Sched.Machine.makeReady_sems
  | «open» file =>
    cases h
    exact congrArg Sched.Machine.sems
      (openSlot_sched (m := { m with nextObject := m.nextObject + 1 }))
  | closeAll exit i =>
    cases h
    split
    · rw [unref_sched]
      rfl
    · rfl
  | closeWorkingDir =>
    simp only [stepPc] at h
    split at h
    · cases h
    · split at h
      · cases h
        rfl
      · cases h
        rw [unref_sched]
        rfl
  | finish =>
    obtain ⟨s, hs, h⟩ := Option.bind_eq_some_iff.mp h
    cases h
    have hstep : Sched.Step m.sched .exit s := ⟨trivial, hs⟩
    funext k
    cases hstep.semEffect (s := k) (by simp) with
    | other hd hu hx => exact hx

/-- No call begins behind a wait. -/
theorem exec_not_waited {call : Call} (I : m.Inv) (hpc : (m.procs q).pc = .user)
    (h : call.exec m q = some m') : (m'.procs q).pc ≠ .waited c i := by
  intro hw
  cases call with
  | exit code =>
    cases h
    rw [exit, setProc_self] at hw
    cases hw
  | _ =>
    rcases (exec_goes I hpc (by simp) h).waited c i hw with hw | hw
    · rw [hpc] at hw
      cases hw
    · rw [hpc] at hw
      cases hw

namespace Signals

/-- A step of `q` below the calls. -/
theorem stepPc (I : m.Inv) (S : m.Signals) (hq : m.sched.current = some q)
    (h : m.stepPc q (m.procs q).pc = some m') : m'.Signals := by
  have hself := stepPc_goes I hq h
  have hd (p : Pid) (hp : (m.procs p).pc.done = true) : (m'.procs p).pc.done = true := by
    rcases decEq p q with hne | rfl
    · exact (stepPc_beside I hne h).goes.done hp
    · exact hself.done hp
  have hother (a : Pid) (ha : a ≠ q) (p : Pid) (i : Nat) (hw : (m'.procs a).pc = .waited p i) :
      (m.procs a).pc = .waited p i := (stepPc_beside I ha h).waited hw
  have hwaited (hpc : ∀ c i, (m.procs q).pc ≠ .wait c i) (a p : Pid) (i : Nat)
      (hw : (m'.procs a).pc = .waited p i) : (m.procs a).pc = .waited p i := by
    rcases decEq a q with hne | rfl
    · exact hother a hne p i hw
    · exact (hself.waited p i hw).resolve_left (hpc p i)
  cases hpc : (m.procs q).pc with
  | wait c i =>
    rw [hpc] at h
    obtain ⟨s, hs, h⟩ := Option.bind_eq_some_iff.mp h
    cases h
    refine S.down (c := c) (q := q) (fun p hp => down_sems_of_ne (doneEvent_ne hp) hs)
      (down_sems_self hq hs) hd
      (fun p j hw => ?_) hother
    rw [goto_pc] at hw
    cases hw
    rfl
  | waited c i =>
    have hq1 : q ≠ 1 := I.ne_idle (by simp [hpc])
    have hc := hd c (S.through q c i hpc (I.not_waiting hq hq1 _))
    have hwaited := hwaited (by rw [hpc]; nofun)
    rw [hpc] at h
    cases h
    exact S.up (fun p hp => up_sems_of_ne (doneEvent_ne hp)) hc hd hwaited
  | signal =>
    have hwaited := hwaited (by rw [hpc]; nofun)
    rw [hpc] at h
    cases h
    exact S.up (fun p hp => up_sems_of_ne (doneEvent_ne hp)) (congrArg Pc.done goto_pc) hd hwaited
  | _ =>
    have hwaited := hwaited (by rw [hpc]; nofun)
    rw [hpc] at h
    exact S.quiet (fun _ => congrFun (stepPc_sems (by simp) (by simp) (by simp) h) _) hd hwaited

theorem step (I : m.Inv) (S : m.Signals) (h : Step m e m') : m'.Signals := by
  obtain ⟨q, hq, hturn⟩ := h.turn
  clear h
  cases hturn with
  | sched hop h => exact S.quiet (fun _ => scheduling_sems hop h) (fun _ => id) fun _ _ _ => id
  | checkReaper =>
    have hstill {p : Pid} : Still m (m.call q .checkReaper) p := Still.setFrames
    exact S.quiet (fun _ => rfl) (fun p h => hstill.1 ▸ h) fun p c i h => hstill.1 ▸ h
  | call hpc hf hidle h =>
    refine S.quiet (fun _ => congrFun (exec_sems h) _) (fun p hd => ?_) fun p c i hw => ?_
    · rcases decEq p q with hne | rfl
      · exact (exec_beside I hne h).goes.done hd
      · rw [hpc] at hd
        cases hd
    · rcases decEq p q with hne | rfl
      · exact (exec_beside I hne h).waited hw
      · exact absurd hw (exec_not_waited I hpc h)
  | frame hf =>
    have hstill {p : Pid} : Still m _ p := stepFrame_still I hf
    exact S.quiet (fun _ => congrFun stepFrame_sems _) (fun p h => hstill.1 ▸ h) fun p c i h =>
      hstill.1 ▸ h
  | pc hf h => exact S.stepPc I hq h

end Signals

/-! ## Exit codes -/

/-- The exit code of a process that exits stays. -/
theorem exitCode_stays (I : m.Inv) (h : Step m e m') (hp : (m.procs p).pc.exits = true) :
    (m'.procs p).pc.exits = true ∧ (m'.procs p).exitCode = (m.procs p).exitCode := by
  rcases e with op | _ | (code | _ | _ | _ | _ | _ | _ | _) | _
  case call.exit =>
    obtain ⟨q, hq, hturn⟩ := h.turn
    clear h
    cases hturn with
    | call hpc hf hidle h =>
      have hne : p ≠ q := by
        rintro rfl
        rw [hpc] at hp
        cases hp
      cases h
      rw [exit, setProc_of_ne hne]
      exact ⟨hp, rfl⟩
  all_goals
    have hgo := goes I h (by simp) p
    exact ⟨hgo.exits_iff.trans hp, hgo.exits hp⟩

/-- A process begins to exit by its own call. -/
theorem exits_by_call (I : m.Inv) (h : Step m e m') (hp : (m'.procs p).pc.exits = true)
    (hn : (m.procs p).pc.exits = false) :
    ∃ code, e = .call (.exit code) ∧ m.sched.current = some p ∧
    (m'.procs p).exitCode = code := by
  rcases e with op | _ | (code | _ | _ | _ | _ | _ | _ | _) | _
  case call.exit =>
    obtain ⟨q, hq, hturn⟩ := h.turn
    clear h
    cases hturn with
    | call hpc hf hidle h =>
      cases h
      rcases decEq p q with hne | rfl
      · rw [exit, setProc_of_ne hne, hn] at hp
        cases hp
      · rw [exit, setProc_self]
        exact ⟨code, rfl, hq, rfl⟩
  all_goals
    have hgo := goes I h (by simp) p
    rw [hgo.exits_iff, hn] at hp
    cases hp

end Machine

/-- In the run `es` the process `p` has called `exit(code)`. -/
def Exited (m₀ : Machine) (es : List Event) (p : Pid) (code : Int) : Prop :=
  ∃ es₁ es₂ m₁, es = es₁ ++ .call (.exit code) :: es₂ ∧ Run Step m₀ es₁ m₁ ∧
    m₁.sched.current = some p

section

variable {count : Nat → Int32} {hz : UInt32} {state : Pid → Sched.State} {code : Int}

theorem Exited.snoc {m₀ : Machine} (h : Exited m₀ es p code) :
    Exited m₀ (es ++ [e]) p code := by
  obtain ⟨es₁, es₂, m₁, rfl, hrun, hp⟩ := h
  exact ⟨es₁, es₂ ++ [e], m₁, by simp, hrun, hp⟩

theorem boot_signals : (boot count hz state).Signals where
  raised c h := by
    have h0 : ((boot count hz state).sched.sems (doneEvent c)).count = 0 := by
      have hs : (boot count hz state).sched.sems = (bootSched count hz state).sems := rfl
      rw [hs, bootSched, Sched.Machine.switch_sems, Sched.Machine.start,
        Sched.Machine.makeReady_sems]
      exact if_pos (Nat.mul_mod_right 2 c)
    exact absurd h0 h
  through q c i h := by
    rw [boot_pc] at h
    rcases q with _ | _ | q <;> cases h

theorem run_signals (h : Run Step (boot count hz state) es m) : m.Signals :=
  (h.inv (I := fun m => m.Inv ∧ m.Signals) (fun _ _ _ I h => ⟨I.1.step h, I.2.step I.1 h⟩)
    ⟨boot_inv, boot_signals⟩).2

/-- Who exits has called `exit` with the code that is stored. -/
theorem exited_of_exits (h : Run Step (boot count hz state) es m)
    (hp : (m.procs p).pc.exits = true) :
    Exited (boot count hz state) es p (m.procs p).exitCode := by
  induction h with
  | nil =>
    rw [boot_pc] at hp
    rcases p with _ | _ | p <;> cases hp
  | @snoc es m e m' hrun hstep ih =>
    have I := run_inv hrun
    cases hn : (m.procs p).pc.exits with
    | true =>
      rw [(Machine.exitCode_stays I hstep hn).2]
      exact (ih hn).snoc
    | false =>
      obtain ⟨code, rfl, hcur, hcode⟩ := Machine.exits_by_call I hstep hp hn
      rw [hcode]
      exact ⟨es, [], m, rfl, hrun, hcur⟩

/-- From then on the code is the same. -/
theorem exitCode_stays_run {m₀ : Machine} (I : m₀.Inv) (h : Run Step m₀ es m)
    (hp : (m₀.procs p).pc.exits = true) : (m.procs p).exitCode = (m₀.procs p).exitCode := by
  refine (h.inv (I := fun m => m.Inv ∧ (m.procs p).pc.exits = true ∧
    (m.procs p).exitCode = (m₀.procs p).exitCode)
    (fun m e m' I h => ?_) ⟨I, hp, rfl⟩).2.2
  obtain ⟨he, hc⟩ := Machine.exitCode_stays I.1 h I.2.1
  exact ⟨I.1.step h, he, hc.trans I.2.2⟩

theorem Pc.exits_of_done {pc : Pc} (h : pc.done = true) : pc.exits = true := by
  cases pc with
  | finish | exited => rfl
  | _ => cases h

/-- **A join returns the code its child has exited with.** When it reads the code, the slot still
holds the child, which is not deleted. -/
theorem join_reads_exitCode (h : Run Step (boot count hz state) es m)
    (hq : m.sched.current = some q) (hf : (m.procs q).frames = [])
    (hpc : (m.procs q).pc = .waited c i) (hstep : Step m .step m') :
    ∃ code, (m'.procs q).pc = .close i (some code) ∧ Exited (boot count hz state) es c code ∧
      (m'.procs q).array i = some (.process c) ∧ m'.deleted (.process c) = 0 ∧
      ∀ es' m'', Run Step m' es' m'' → (m''.procs c).exitCode = code := by
  have I := run_inv h
  have I' := I.step hstep
  have hq1 : q ≠ 1 := I.ne_idle (by simp [hpc])
  have hdone : (m.procs c).pc.done = true :=
    (run_signals h).through q c i hpc (I.not_waiting hq hq1 _)
  have hexits := Pc.exits_of_done hdone
  obtain ⟨hexits', hcode⟩ := Machine.exitCode_stays I hstep hexits
  have hslot : (m.procs q).array i = some (.process c) := by
    have hfits := (I.rest.ok q).fits
    rw [hpc] at hfits
    exact hfits.2
  have hm : m' =
      { m with sched := m.sched.up (doneEvent c) }.goto q
      (.close i (some (m.procs c).exitCode)) := by
    obtain ⟨q', hq', hturn⟩ := hstep.turn
    obtain rfl : q = q' := Option.some.inj (hq.symm.trans hq')
    clear hstep
    cases hturn with
    | frame hf' =>
      rw [hf] at hf'
      cases hf'
    | pc hf' h =>
      rw [hpc] at h
      cases h
      rfl
  have hself : m'.procs q = { m.procs q with pc := .close i (some (m.procs c).exitCode) } := by
    rw [hm]
    exact Machine.setProc_self
  have hslot' : (m'.procs q).array i = some (.process c) := by rwa [hself]
  have hholds : m'.Holds (.slot q i) (.process c) := ⟨hslot', by rw [hself]; nofun⟩
  refine ⟨(m.procs c).exitCode, by rw [hself], exited_of_exits h hexits, hslot',
    I'.refs.not_deleted hholds, ?_⟩
  intro es' m'' hrun
  exact (exitCode_stays_run I' hrun hexits').trans hcode

/-- `k` steps of whoever runs. -/
def steps (k : Nat) : List Event := List.replicate k .step

/-- Init forks and waits for the child, which exits with 7. -/
def forkAndJoin : List Event :=
  steps 3 ++ .call .fork :: steps 103 ++ .call (.join 2) :: .step :: .call (.exit 7) :: steps 201

set_option maxRecDepth 100000 in
theorem join_reads_exitCode_seven :
    ∃ m m', Run Step (boot (fun _ => 0) 1000 fun _ => .READY) forkAndJoin m ∧
    Step m .step m' ∧ ∃ code, (m'.procs 0).pc = .close 2 (some code) ∧
      Exited (boot (fun _ => 0) 1000 fun _ => .READY) forkAndJoin 2 code ∧
      (m'.procs 0).array 2 = some (.process 2) ∧
      m'.deleted (.process 2) = 0 ∧ ∀ es' m'', Run Step m' es' m'' →
      (m''.procs 2).exitCode = code := by
  have hrun : (forkAndJoin.foldlM Event.next (boot (fun _ => 0) 1000 fun _ => .READY)).map
        (fun m : Machine => (m.sched.current, (m.procs 0).frames, (m.procs 0).pc,
          (Event.next m .step).isSome)) =
          some (some 0, [], .waited 2 2, true) := by
    decide +kernel
  obtain ⟨m, hm, he⟩ := Option.map_eq_some_iff.mp hrun
  simp only [Prod.mk.injEq] at he
  obtain ⟨hq, hf, hpc, hsome⟩ := he
  obtain ⟨m', hstep⟩ := Option.isSome_iff_exists.mp hsome
  have h : Run Step (boot (fun _ => 0) 1000 fun _ => .READY) forkAndJoin m :=
    Run.of_foldlM (fun _ _ _ => id) hm
  exact ⟨m, m', h, hstep, join_reads_exitCode h hq hf hpc hstep⟩

end

end K439.Table
