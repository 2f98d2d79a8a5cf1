import K439.Lib.Run
import K439.Table.Reaper

/-!
# Runs of many processes

The processes fork, open, close, join, change their directories and exit, in any interleaving. `Inv`
holds in every state reached.
-/

namespace K439.Table

open Sched (Pid SameLives)

variable {m m' : Machine} {q : Pid}

namespace Pc.Calm

variable {c : Pid} {i : Nat}

theorem user : Pc.user.Calm := ⟨rfl, rfl, rfl, rfl⟩

theorem addWorkingDir : (Pc.addWorkingDir false).Calm := ⟨rfl, rfl, rfl, rfl⟩

theorem «open» {file : Bool} : (Pc.open file).Calm := ⟨rfl, rfl, rfl, rfl⟩

theorem wait : (Pc.wait c i).Calm := ⟨rfl, rfl, rfl, rfl⟩

theorem waited : (Pc.waited c i).Calm := ⟨rfl, rfl, rfl, rfl⟩

theorem close {code : Option Int} : (Pc.close i code).Calm := ⟨rfl, rfl, rfl, rfl⟩

theorem closeAll {exit : Bool} : (Pc.closeAll exit i).Calm := ⟨rfl, rfl, rfl, rfl⟩

theorem closeWorkingDir : Pc.closeWorkingDir.Calm := ⟨rfl, rfl, rfl, rfl⟩

end Pc.Calm

/-- What the current process `q` does in a step. -/
inductive Turn (m : Machine) (q : Pid) : Event → Machine → Prop
  | sched (hop : scheduling op = true) (h : op.exec m.sched = some s) :
      Turn m q (.sched op) { m with sched := s }
  | checkReaper : Turn m q .checkReaper (m.call q .checkReaper)
  | call (hpc : (m.procs q).pc = .user) (hf : (m.procs q).frames = [])
      (hidle : m.sched.idleProcess ≠ some q) (h : c.exec m q = some t) : Turn m q (.call c) t
  | frame (hf : (m.procs q).frames = f :: frames) : Turn m q .step (m.stepFrame q frames f)
  | pc (hf : (m.procs q).frames = []) (h : m.stepPc q (m.procs q).pc = some t) : Turn m q .step t

theorem Step.turn {e : Event} (h : Step m e m') :
    ∃ q, m.sched.current = some q ∧ Turn m q e m' := by
  have h : e.next m = some m' := h
  unfold Event.next at h
  cases hc : m.sched.current with
  | none =>
    rw [hc] at h
    cases h
  | some q =>
    rw [hc] at h
    refine ⟨q, rfl, ?_⟩
    cases e with
    | sched op =>
      dsimp only at h
      split at h
      next hop =>
        obtain ⟨s, hs, h⟩ := Option.bind_eq_some_iff.mp h
        cases h
        exact .sched hop hs
      · cases h
    | checkReaper =>
      cases h
      exact .checkReaper
    | call c =>
      dsimp only at h
      split at h
      next hu => exact .call hu.1 hu.2.1 hu.2.2 h
      · cases h
    | step =>
      dsimp only at h
      split at h
      next hf =>
        cases h
        exact .frame hf
      next hf => exact .pc hf h

namespace Machine.Inv

/-- A process that exits goes on with an empty table. -/
theorem emptied {x : Proc} (I : Inv m) (hq : m.sched.current = some q) (hq1 : q ≠ 1)
    (hex : (m.procs q).pc ≠ .exited) (hboots : (m.procs q).pc.boots = false)
    (hx : x.pc = .signal ∨ x.pc = .finish) (hf : x.frames = (m.procs q).frames)
    (ha : ∀ j, x.array j = none)
    (hs : ∀ j y, (m.procs q).array j = some y → (m.procs q).pc.clears = some j) :
    Inv (m.setProc q x) := by
  have hnone {j : Nat} {y : Resource} : x.array j ≠ some y := by
    rw [ha]
    nofun
  have hpc : x.pc ≠ .new ∧ x.pc.child = none ∧ x.pc.early = false ∧ x.pc.boots = false ∧
      x.pc.settled = false ∧ (∀ array, x.pc.Fits array) ∧ x.pc ≠ .refRootDir := by
    rcases hx with hx | hx <;> rw [hx] <;>
      exact ⟨nofun, rfl, rfl, rfl, rfl, fun _ => trivial, nofun⟩
  obtain ⟨hnew, hc, hearly, hb, hset, hsp, hroot⟩ := hpc
  refine I.setProc hq hex hf hnew hc (fun j y h => absurd h hnone) ?_ (fun h => ?_)
    (fun _ => hb.trans hboots.symm)
    fun j y => iff_of_false (fun h => hnone h.1) fun h => h.2 (hs j y h.1)
  · exact {
      zero := ha 0
      beyond := fun j _ => ha j
      fits := hsp _
      emptied := fun j _ => ha j
      settled := fun _ h => absurd h (hset ▸ Bool.false_ne_true)
      idle := fun h => absurd h hq1
      boots := fun h => absurd h (hb ▸ Bool.false_ne_true)
      root := fun h => absurd h hroot }
  · rw [hearly] at h
    cases h

/-! ## The steps at each place -/

/-- The first process has the root directory, which its caller owns. -/
theorem setRootDir (I : Inv m) (hq : m.sched.current = some q)
    (hpc : (m.procs q).pc = .setWorkingDir true) :
    Inv (((m.ref rootdir).setSlot q 1 (some rootdir)).goto q .refRootDir) := by
  have hq0 : q = 0 := (I.rest.ok q).boots (by rw [hpc]; rfl)
  have hroot := (I.rest.early (by rw [← hq0, hpc]; rfl)).1
  have heq : ((m.ref rootdir).setSlot q 1 (some rootdir)).goto q .refRootDir =
      (m.ref rootdir).setProc q
      { m.procs q with
        pc := .refRootDir
        array := Function.update (m.procs q).array 1 (some rootdir) } := goto_setProc
  rw [heq]
  exact I.setWorkingDir hq hpc (Nat.not_le_of_lt I.rest.object) hroot (by simp) rfl rfl rfl

/-- The directory of a `cd` is a new object. -/
theorem setNewDir (I : Inv m) (hq : m.sched.current = some q)
    (hpc : (m.procs q).pc = .setWorkingDir false) :
    Inv ((({ m with nextObject := m.nextObject + 1 }.ref (.directory m.nextObject)).setSlot q 1
      (some (.directory m.nextObject))).ret q 0) := by
  have hnew : m.New (.directory m.nextObject) := Nat.le_refl _
  have heq : (({ m with nextObject := m.nextObject + 1 }.ref (.directory m.nextObject)).setSlot q 1
      (some (.directory m.nextObject))).ret q 0 =
      ({ m with nextObject := m.nextObject + 1 }.ref (.directory m.nextObject)).setProc q
        { m.procs q with
          pc := .user
          array := Function.update (m.procs q).array 1 (some (.directory m.nextObject))
          returned := 0 } := ret_setProc
  rw [heq]
  exact I.newObject.setWorkingDir hq hpc (Nat.not_succ_le_self _) (I.rest.fresh _ hnew)
    (by simp [Nat.ne_of_gt I.rest.object]) rfl rfl rfl

/-- `join` waits for the child. -/
theorem waitDone {c : Pid} {i : Nat} {s : Sched.Machine} (I : Inv m) (hq : m.sched.current = some q)
    (hpc : (m.procs q).pc = .wait c i) (hd : m.sched.down (doneEvent c) = some s) :
    Inv ({ m with sched := s }.goto q (.waited c i)) := by
  have hs := (I.rest.ok q).fits
  rw [hpc] at hs
  have I' : Inv (m.goto q (.waited c i)) :=
    I.next hq (I.ne_idle (by simp [hpc])) (by rw [hpc]; exact Pc.Calm.wait)
    Pc.Calm.waited rfl rfl hs fun _ h => h.elim
  exact I'.setSched (I.rest.sched.down hd) (SameLives.down I.rest.idle hd)

/-- Behind the wait the event is signalled again, for the others that join. -/
theorem signalAgain {c : Pid} {i : Nat} (I : Inv m) (hq : m.sched.current = some q)
    (hpc : (m.procs q).pc = .waited c i) :
    Inv ({ m with sched := m.sched.up (doneEvent c) }.goto q
      (.close i (some (m.procs c).exitCode))) := by
  have hs := (I.rest.ok q).fits
  rw [hpc] at hs
  have I' : Inv (m.goto q (.close i (some (m.procs c).exitCode))) :=
    I.next hq (I.ne_idle (by simp [hpc]))
    (by rw [hpc]; exact Pc.Calm.waited) Pc.Calm.close rfl rfl hs.1 fun _ h => h.elim
  exact I'.setSched I.rest.sched.up SameLives.up

theorem clearHandle {i : Nat} {rc : Int} (I : Inv m) (hq : m.sched.current = some q)
    (hpc : (m.procs q).pc = .clear i rc) : Inv ((m.setSlot q i none).ret q rc) := by
  have heq : (m.setSlot q i none).ret q rc = m.setProc q
      { m.procs q with
        pc := .user
        array := Function.update (m.procs q).array i none
        returned := rc } := ret_setProc
  rw [heq]
  exact I.clearSlot hq (I.ne_idle (by simp [hpc])) (by rw [hpc]; rfl) (by rw [hpc]; rfl)
    (by rw [hpc]; rfl)
    ⟨rfl, rfl, rfl, rfl⟩ rfl trivial (fun _ h => h.elim) rfl

/-- The loop of `closeAll`: the next slot, or its end. -/
theorem closeNext {exit : Bool} {i : Nat} (I : Inv m) (hq : m.sched.current = some q)
    (hpc : (m.procs q).pc = .closeAll exit i) :
    Inv (if i < n then (m.goto q (.clearAll exit i)).unref q ((m.procs q).array i)
      else m.goto q (if exit then .closeWorkingDir else .user)) := by
  have hs := (I.rest.ok q).fits
  have he := (I.rest.ok q).emptied
  rw [hpc] at hs he
  have hq1 : q ≠ 1 := I.ne_idle (by simp [hpc])
  have hcalm : (m.procs q).pc.Calm := by
    rw [hpc]
    exact Pc.Calm.closeAll
  split
  next =>
    exact I.unrefNext hq hq1 hcalm (by simp) rfl rfl rfl hs rfl fun j hj =>
      he j (by cases exit <;> exact hj)
  next hi =>
    cases exit with
    | true =>
      refine I.next hq hq1 hcalm Pc.Calm.closeWorkingDir rfl rfl trivial fun j hj => ?_
      rcases Nat.lt_or_ge j i with hlt | hge
      · exact he j ⟨hj, hlt⟩
      · exact (I.rest.ok q).beyond j ((Nat.le_of_not_lt hi).trans hge)
    | false => exact I.next hq hq1 hcalm Pc.Calm.user rfl rfl trivial fun _ h => h.elim

/-- A slot that `closeAll` has emptied. -/
theorem clearNext {exit : Bool} {i : Nat} (I : Inv m) (hq : m.sched.current = some q)
    (hpc : (m.procs q).pc = .clearAll exit i) :
    Inv ((m.setSlot q i none).goto q (.closeAll exit (i + 1))) := by
  have hs := (I.rest.ok q).fits
  have he := (I.rest.ok q).emptied
  rw [hpc] at hs he
  have heq : (m.setSlot q i none).goto q (.closeAll exit (i + 1)) = m.setProc q
      { m.procs q with
        pc := .closeAll exit (i + 1)
        array := Function.update (m.procs q).array i none } := goto_setProc
  rw [heq]
  refine I.clearSlot hq (I.ne_idle (by simp [hpc])) (by rw [hpc]; rfl) (by rw [hpc]; rfl)
    (by rw [hpc]; rfl)
    Pc.Calm.closeAll rfl (Nat.le_succ_of_le hs) (fun j hj => ?_) rfl
  cases exit with
  | true =>
    rcases decEq j i with hne | rfl
    · exact (Function.update_of_ne hne ..).trans
        (he j ⟨hj.1, Nat.lt_of_le_of_ne (Nat.le_of_lt_succ hj.2) hne⟩)
    · exact Function.update_self ..
  | false => exact hj.elim

/-- `exit` finds a directory in slot 1. -/
theorem unrefWorkingDir (I : Inv m) (hq : m.sched.current = some q)
    (hpc : (m.procs q).pc = .closeWorkingDir) (h : m.stepPc q .closeWorkingDir = some m') :
    Inv m' := by
  have he := (I.rest.ok q).emptied
  rw [hpc] at he
  have hq1 : q ≠ 1 := I.ne_idle (by simp [hpc])
  obtain ⟨k, hk⟩ := (I.rest.ok q).settled hq1 (by rw [hpc]; rfl)
  simp only [Machine.stepPc, hk, Resource.type, ne_eq, not_true_eq_false, if_false,
    Option.some.injEq] at h
  subst h
  rw [← hk]
  exact I.unrefNext hq hq1 (by rw [hpc]; exact Pc.Calm.closeWorkingDir)
    (by simp) rfl rfl rfl trivial rfl he

/-- The last slot of a process that exits. -/
theorem clearWorkingDir (I : Inv m) (hq : m.sched.current = some q)
    (hpc : (m.procs q).pc = .clearWorkingDir) : Inv ((m.setSlot q 1 none).goto q .signal) := by
  have he := (I.rest.ok q).emptied
  rw [hpc] at he
  have heq : (m.setSlot q 1 none).goto q .signal = m.setProc q
      { m.procs q with
        pc := .signal
        array := Function.update (m.procs q).array 1 none } := goto_setProc
  rw [heq]
  have hnull j (hj : j ≠ 1) : (m.procs q).array j = none := by
    rcases Nat.eq_zero_or_pos j with rfl | hpos
    · exact (I.rest.ok q).zero
    · exact he j (by omega : 2 ≤ j)
  refine I.emptied hq (I.ne_idle (by simp [hpc])) (by simp [hpc]) (by rw [hpc]; rfl)
    (.inl rfl) rfl (fun j => ?_)
    fun j y h => ?_
  · rcases Nat.decEq j 1 with hne | rfl
    · exact (Function.update_of_ne hne _ _).trans (hnull j hne)
    · simp
  · rcases Nat.decEq j 1 with hne | rfl
    · rw [hnull j hne] at h
      cases h
    · rw [hpc]
      rfl

theorem signalDone (I : Inv m) (hq : m.sched.current = some q) (hpc : (m.procs q).pc = .signal) :
    Inv ({ m with sched := m.sched.up (doneEvent q) }.goto q .finish) := by
  have he := (I.rest.ok q).emptied
  rw [hpc] at he
  have I' : Inv (m.goto q .finish) := by
    refine I.emptied hq (I.ne_idle (by simp [hpc])) (by simp [hpc]) (by rw [hpc]; rfl)
      (.inr rfl) rfl
      (fun j => he j trivial) fun j y h => ?_
    rw [he j trivial] at h
    cases h
  exact I'.setSched I.rest.sched.up SameLives.up

/-- A step of a process. -/
theorem stepPc (I : Inv m) (hq : m.sched.current = some q)
    (h : m.stepPc q (m.procs q).pc = some m') : Inv m' := by
  cases hpc : (m.procs q).pc with
  | new | user | exited =>
    rw [hpc] at h
    cases h
  | addWorkingDir root =>
    rw [hpc] at h
    cases h
    exact I.addWorkingDir hq hpc
  | setWorkingDir root =>
    rw [hpc] at h
    cases root with
    | true =>
      cases h
      exact I.setRootDir hq hpc
    | false =>
      cases h
      exact I.setNewDir hq hpc
  | refRootDir =>
    rw [hpc] at h
    cases h
    exact I.refRootDir hq hpc
  | forkMe c i =>
    rw [hpc] at h
    cases h
    split
    next hi => exact I.copySlot hq hpc hi
    next hi => exact I.endForkMe hq hpc (Nat.le_of_not_lt hi)
  | openChild c => exact I.openChild hq hpc (hpc ▸ h)
  | startChild c id =>
    rw [hpc] at h
    cases h
    exact I.startChild hq hpc
  | «open» file => exact I.open hq hpc (hpc ▸ h)
  | wait c i =>
    rw [hpc] at h
    obtain ⟨s, hd, h⟩ := Option.bind_eq_some_iff.mp h
    cases h
    exact I.waitDone hq hpc hd
  | waited c i =>
    rw [hpc] at h
    cases h
    exact I.signalAgain hq hpc
  | close i code =>
    have hs := (I.rest.ok q).fits
    rw [hpc] at h hs
    cases h
    exact I.unrefNext hq (I.ne_idle (by simp [hpc])) (by rw [hpc]; exact Pc.Calm.close)
      (by simp) rfl rfl rfl hs rfl
      fun _ h => h.elim
  | clear i rc =>
    rw [hpc] at h
    cases h
    exact I.clearHandle hq hpc
  | closeAll exit i =>
    rw [hpc] at h
    cases h
    exact I.closeNext hq hpc
  | clearAll exit i =>
    rw [hpc] at h
    cases h
    exact I.clearNext hq hpc
  | closeWorkingDir => exact I.unrefWorkingDir hq hpc (hpc ▸ h)
  | clearWorkingDir =>
    rw [hpc] at h
    cases h
    exact I.clearWorkingDir hq hpc
  | signal =>
    rw [hpc] at h
    cases h
    exact I.signalDone hq hpc
  | finish =>
    rw [hpc] at h
    obtain ⟨s, hs, h⟩ := Option.bind_eq_some_iff.mp h
    cases h
    exact I.finish hq hpc hs

/-- A system call up to its first step. -/
theorem call {c : Call} (I : Inv m) (hq : m.sched.current = some q) (hq1 : q ≠ 1)
    (hpc : (m.procs q).pc = .user) (h : c.exec m q = some m') : Inv m' := by
  have C : (m.procs q).pc.Calm := by
    rw [hpc]
    exact Pc.Calm.user
  have hret {rc : Int} : Inv (m.ret q rc) := I.ret hq hq1 C
  have hgoto {pc : Pc} (C' : pc.Calm) (hs : pc.Fits (m.procs q).array)
      (he : ∀ j, ¬pc.Emptied j) : Inv (m.goto q pc) :=
    I.next hq hq1 C C' rfl rfl hs fun j h => absurd h (he j)
  cases c with
  | exit code =>
    cases h
    exact I.next hq hq1 C Pc.Calm.closeAll rfl rfl (Nat.le_refl 2) fun j h =>
      absurd h.2 (Nat.not_lt_of_le h.1)
  | fork => exact I.newTable hq hq1 hpc h
  | semaphore =>
    cases h
    exact hgoto Pc.Calm.open trivial fun _ => id
  | join i =>
    have hjoin : m.join q i = some m' := h
    unfold Machine.join at hjoin
    split at hjoin
    · cases hjoin
      exact hret
    split at hjoin
    · cases hjoin
      exact hret
    split at hjoin
    · cases hjoin
    next c hc =>
      cases hjoin
      refine hgoto Pc.Calm.wait ⟨fun h1 => ?_, hc⟩ fun _ => id
      obtain ⟨k, hk⟩ := (I.rest.ok q).settled hq1 C.settled
      rw [h1, hk] at hc
      cases hc
    · cases hjoin
      exact hret
  | «open» found =>
    cases h
    split
    · exact hgoto Pc.Calm.open trivial fun _ => id
    · exact hret
  | close i =>
    cases h
    unfold Machine.close
    split
    · exact hret
    split
    · exact hret
    split
    · exact hret
    next h0 _ h1 =>
      refine hgoto Pc.Calm.close (fun h => h1 ?_) fun _ => id
      omega
  | execv found =>
    cases h
    split
    · exact hgoto Pc.Calm.closeAll (Nat.le_refl 2) fun _ => id
    · exact hret
  | cd path =>
    cases path with
    | none =>
      cases h
      exact hret
    | some found =>
      cases h
      split
      · exact hgoto Pc.Calm.addWorkingDir trivial fun _ => id
      · exact hret

/-- The current process is interrupted, yields, sleeps or waits for a semaphore. -/
theorem schedule {op : Sched.Op} {s : Sched.Machine} (I : Inv m) (hop : scheduling op = true)
    (h : op.exec m.sched = some s) : Inv { m with sched := s } := by
  have hi := I.rest.idle
  cases op with
  | yield =>
    exact I.setSched (I.rest.sched.yield (fun _ hq => by cases hq) h) (SameLives.yield hi h)
  | down k => exact I.setSched (I.rest.sched.down h) (SameLives.down hi h)
  | up k =>
    cases h
    exact I.setSched I.rest.sched.up SameLives.up
  | sleepUntil second => exact I.setSched (I.rest.sched.sleepUntil h) (SameLives.sleepUntil hi h)
  | tick =>
    cases h
    have hstep : Sched.Step m.sched .tick m.sched.handler := ⟨trivial, rfl⟩
    exact I.setSched (I.rest.sched.step hstep) SameLives.handler
  | startIrq =>
    have hstep : Sched.Step m.sched .startIrq s := ⟨trivial, h⟩
    have hs := I.rest.sched.step hstep
    obtain ⟨me, -, rfl⟩ := Option.map_eq_some_iff.mp h
    exact I.setSched hs SameLives.irq
  | endIrq =>
    have hstep : Sched.Step m.sched .endIrq s := ⟨trivial, h⟩
    have hs := I.rest.sched.step hstep
    cases h
    refine I.setSched hs ?_
    unfold Sched.Machine.endIrq
    split
    · exact SameLives.refl
    · exact SameLives.irq
  | construct | start | boot | yieldOn | exit | checkReaper => cases hop

/-- **Every step keeps the invariant.** -/
theorem step {e : Event} (I : Inv m) (h : Step m e m') : Inv m' := by
  obtain ⟨q, hq, hturn⟩ := h.turn
  clear h
  cases hturn with
  | sched hop h => exact I.schedule hop h
  | checkReaper =>
    refine I.setFrames (fun p => List.count_cons_of_ne (by simp)) fun p i h =>
      I.rest.destroys p i q ?_
    simpa using h
  | call hpc hf hidle h => exact I.call hq (fun h1 => hidle (I.rest.idle.trans (h1 ▸ rfl))) hpc h
  | frame hf => exact I.stepFrame hf
  | pc hf h => exact I.stepPc hq h

end Machine.Inv

/-! ## The start of a run -/

section

variable {count : Nat → Int32} {hz : UInt32} {state : Pid → Sched.State} {es : List Event}

theorem bootSched_inv : Sched.Inv (bootSched count hz state) := by
  have h₀ := Sched.Inv.init (fun s => if s % 2 = 0 then 0 else count s) hz state
  have hconstruct :
      Sched.Step (Sched.Machine.init (fun s => if s % 2 = 0 then 0 else count s) hz state)
        .construct
        { Sched.Machine.init (fun s => if s % 2 = 0 then 0 else count s) hz state with
          nextId := 1 } := ⟨trivial, rfl⟩
  have h₁ := (h₀.step hconstruct).newIdleProcess rfl
  exact (h₁.start Nat.two_pos (fun h => Nat.zero_ne_one (List.mem_singleton.mp h))).switch rfl

theorem boot_pc {p : Pid} : ((boot count hz state).procs p).pc =
    if p = 0 then .addWorkingDir true else if p = 1 then .user else .new := rfl

theorem boot_array {p : Pid} {i : Nat} : ((boot count hz state).procs p).array i = none := rfl

theorem boot_child {p : Pid} : ((boot count hz state).procs p).pc.child = none := by
  rcases p with _ | _ | p <;> rfl

theorem boot_ok {p : Pid} : ((boot count hz state).procs p).Ok p where
  zero := rfl
  beyond _ _ := rfl
  fits := by rcases p with _ | _ | p <;> exact trivial
  emptied _ _ := rfl
  settled hp h := by
    rcases p with _ | _ | p
    · cases h
    · exact absurd rfl hp
    · cases h
  idle := by
    rintro rfl
    rfl
  boots h := by
    rcases p with _ | _ | p
    · rfl
    · cases h
    · cases h
  root h := by rcases p with _ | _ | p <;> cases h

/-- Who holds the resources in the beginning. -/
def bootOwner : Resource → Option Holder
  | .process p => if p ≤ 1 then some (.self p) else none
  | .table p => if p ≤ 1 then some (.resources p) else none
  | _ => none

theorem boot_holds {a : Holder} {r : Resource} :
    (boot count hz state).Holds a r ↔ bootOwner r = some a := by
  have hpc {p : Pid} : ((boot count hz state).procs p).pc ≠ .new ↔ p ≤ 1 := by
    rw [boot_pc]
    rcases p with _ | _ | p <;> simp
  have hreaped {p : Pid} : p ∉ (boot count hz state).sched.reaped := List.not_mem_nil
  have hd {p : Pid} : (boot count hz state).deleted (.table p) = 0 := rfl
  have hb : ((boot count hz state).procs 0).pc.boots = true := rfl
  cases a with
  | self p =>
    rw [Machine.Holds, hpc]
    cases r with
    | process p' =>
      simp only [bootOwner, hreaped, false_implies, and_true, Resource.process.injEq,
        Option.ite_none_right_eq_some, Option.some.injEq, Holder.self.injEq]
      exact ⟨fun h => ⟨h.1 ▸ h.2, h.1⟩, fun h => ⟨h.2, h.2 ▸ h.1⟩⟩
    | _ => simp [bootOwner]
  | slot p i =>
    cases r <;> simp [Machine.Holds, boot_array, bootOwner]
  | resources p =>
    rw [Machine.Holds, hpc]
    cases r with
    | table p' =>
      simp only [bootOwner, hd, and_true, Resource.table.injEq, Option.ite_none_right_eq_some,
        Option.some.injEq, Holder.resources.injEq]
      exact ⟨fun h => ⟨h.1 ▸ h.2, h.1⟩, fun h => ⟨h.2, h.2 ▸ h.1⟩⟩
    | _ => simp [bootOwner]
  | rootdir => cases r <;> simp [Machine.Holds, hb, bootOwner]

theorem boot_inv : (boot count hz state).Inv where
  rest := {
    sched := bootSched_inv
    idle := rfl
    started := fun p hp => by
      have hmem : p ∈ [1, 0] := hp
      rcases List.mem_pair.mp hmem with rfl | rfl <;> nofun
    queue := fun p hp => absurd hp List.not_mem_nil
    pending := fun p q h => absurd h List.not_mem_nil
    pendingOne := fun p a b h _ => absurd h List.not_mem_nil
    pendingOnce := fun p a => Nat.zero_le _
    destroys := fun p i q h => absurd h (by simp [boot])
    ok := fun p => boot_ok
    old := fun p i r h => by
      rw [boot_array] at h
      cases h
    fresh := fun _ _ => rfl
    object := Nat.one_pos
    file := fun p i a j k h => by
      rw [boot_array] at h
      cases h
    makes := fun p c h => by
      rw [boot_child] at h
      cases h
    parent := fun p q c h => by
      rw [boot_child] at h
      cases h
    unborn := fun p h => by
      rcases p with _ | _ | p
      · exact absurd h (Nat.not_le_of_lt Nat.two_pos : ¬2 ≤ 0)
      · exact absurd h (Nat.not_le_of_lt Nat.one_lt_two : ¬2 ≤ 1)
      · exact ⟨rfl, fun _ => rfl⟩
    early := fun _ => ⟨rfl, fun _ _ => nofun⟩
    room := by
      have ht : (boot count hz state).tables = 2 := rfl
      rw [ht]
      decide
    opened := nofun }
  refs := {
    counted := RefCounted.of_owner (fun _ _ => boot_holds) fun r => by
      cases r with
      | process p => rcases p with _ | _ | p <;> simp [boot, bootOwner]
      | table p => rcases p with _ | _ | p <;> simp [boot, bootOwner]
      | semaphore k | file k | directory k => simp [boot, bootOwner]
    dead := fun r h => absurd rfl h
    alive := fun p hp _ => ⟨.self p, rfl, hp, fun h => absurd h List.not_mem_nil⟩
    table := fun p h => absurd rfl h }

/-- `Inv` holds in every state of every run. -/
theorem run_inv (h : Run Step (boot count hz state) es m) : m.Inv :=
  h.inv (fun _ _ _ I h => I.step h) boot_inv

end

end K439.Table
