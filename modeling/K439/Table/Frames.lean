import K439.Table.Runs

/-!
# What a step leaves alone

The current process changes its own entry. A child that is being made is the only other process
whose slots and place in the code change.
-/

namespace K439.Table

open Sched (Pid)

variable {m m' : Machine} {p q c : Pid} {i : Nat} {r : Resource} {e : Event}

namespace Machine

/-- The entry of `p` apart from the calls on top. -/
def Still (m m' : Machine) (p : Pid) : Prop :=
  (m'.procs p).pc = (m.procs p).pc ∧ (m'.procs p).array = (m.procs p).array ∧
    (m'.procs p).exitCode = (m.procs p).exitCode

namespace Still

theorem refl : Still m m p := ⟨rfl, rfl, rfl⟩

theorem trans {m'' : Machine} (h : Still m m' p) (h' : Still m' m'' p) : Still m m'' p :=
  ⟨h'.1.trans h.1, h'.2.1.trans h.2.1, h'.2.2.trans h.2.2⟩

theorem of_eq (h : m'.procs p = m.procs p) : Still m m' p := by
  unfold Still
  rw [h]
  exact ⟨rfl, rfl, rfl⟩

theorem setProc {x : Proc} (h : p ≠ q) : Still m (m.setProc q x) p := of_eq (setProc_of_ne h)

theorem setFrames {frames : List Frame} :
    Still m (m.setProc q { m.procs q with frames := frames }) p := by
  rcases decEq p q with hne | rfl
  · exact setProc hne
  · unfold Still
    rw [setProc_self]
    exact ⟨rfl, rfl, rfl⟩

theorem delete : Still m (m.delete q r) p := by
  cases r with
  | table p => exact setFrames (m := { m with deleted := _ })
  | process p | semaphore k | file k | directory k => exact refl

theorem unrefOther : Still m (m.unrefOther q r) p := by
  rw [Machine.unrefOther]
  split
  · exact delete (m := m.getThenSub r)
  · exact refl

/-- `Resource::unref`, with the destructors. -/
theorem unref {o : Option Resource} : Still m (m.unref q o) p := by
  unfold Machine.unref
  split
  · exact refl
  · split
    · exact (delete (m := m.getThenSub _)).trans unrefOther
    · exact refl
  · exact unrefOther

end Still

theorem unrefOther_sched : (m.unrefOther q r).sched = m.sched := by
  rw [Machine.unrefOther]
  split
  · cases r <;> rfl
  · rfl

theorem unref_sched {o : Option Resource} : (m.unref q o).sched = m.sched := by
  unfold Machine.unref
  split
  · rfl
  · split
    · exact unrefOther_sched
    · rfl
  · exact unrefOther_sched

end Machine

namespace Pc

/-- From the start of `exit` on. -/
def exits : Pc → Bool
  | .closeAll true _ => true
  | .clearAll true _ => true
  | .closeWorkingDir => true
  | .clearWorkingDir => true
  | .signal => true
  | .finish => true
  | .exited => true
  | _ => false

/-- After `doneEvent.signal()`. -/
def done : Pc → Bool
  | .finish => true
  | .exited => true
  | _ => false

end Pc

/-- How the entry of a process may change in a step. -/
structure Proc.Goes (x x' : Proc) : Prop where
  /-- the working directory stays until `addWorkingDir` or `closeWorkingDir` -/
  dir : x.pc.settled = true → x'.array 1 = x.array 1
  exits : x.pc.exits = true → x'.exitCode = x.exitCode
  /-- `exit` is called as a system call -/
  exits_iff : x'.pc.exits = x.pc.exits
  done : x.pc.done = true → x'.pc.done = true
  waited : ∀ c i, x'.pc = .waited c i → x.pc = .wait c i ∨ x.pc = .waited c i

namespace Proc.Goes

variable {x x' y : Proc}

theorem refl : Goes x x := ⟨fun _ => rfl, fun _ => rfl, rfl, id, fun _ _ => .inr⟩

theorem congr (h : Goes x y) (hp : x'.pc = y.pc) (ha : x'.array = y.array)
    (hc : x'.exitCode = y.exitCode) : Goes x x' := by
  constructor
  · rw [ha]
    exact h.dir
  · rw [hc]
    exact h.exits
  · rw [hp]
    exact h.exits_iff
  · rw [hp]
    exact h.done
  · rw [hp]
    exact h.waited

/-- A process that has not called `exit`. -/
theorem running {pc : Pc} (hp : x'.pc = pc) (he : x.pc.exits = false) (he' : pc.exits = false)
    (hd : x.pc.settled = true → x'.array 1 = x.array 1)
    (hw : ∀ c i, pc = .waited c i → x.pc = .wait c i ∨ x.pc = .waited c i) : Goes x x' := by
  subst hp
  refine ⟨hd, fun h => ?_, he'.trans he.symm, fun h => ?_, hw⟩
  · rw [he] at h
    cases h
  · revert he h
    generalize x.pc = pc
    intro he h
    cases pc with
    | finish | exited => cases he
    | _ => cases h

/-- A process that has called `exit`. -/
theorem exiting {pc : Pc} (hp : x'.pc = pc) (he : x.pc.exits = true) (he' : pc.exits = true)
    (hd : x.pc.settled = true → x'.array 1 = x.array 1) (hf : x.pc.done = true → pc.done = true)
    (hc : x'.exitCode = x.exitCode) : Goes x x' := by
  subst hp
  refine ⟨hd, fun _ => hc, he'.trans he.symm, hf, fun c i hw => ?_⟩
  rw [hw] at he'
  cases he'

theorem of_still (h : Machine.Still m m' p) : Goes (m.procs p) (m'.procs p) :=
  refl.congr h.1 h.2.1 h.2.2

/-- A process that is being made. -/
theorem of_new (h : x.pc = .new) (h' : x'.pc = .new ∨ x'.pc = .user) : Goes x x' := by
  refine .running rfl (by rw [h]; rfl) ?_ (fun hs => ?_) fun c i hw => ?_
  · rcases h' with h' | h' <;> rw [h'] <;> rfl
  · rw [h] at hs
    cases hs
  · rcases h' with h' | h' <;> rw [hw] at h' <;> cases h'

end Proc.Goes

namespace Machine

theorem goto_pc {pc : Pc} : ((m.goto q pc).procs q).pc = pc := by rw [goto, setProc_self]

theorem ret_pc {rc : Int} : ((m.ret q rc).procs q).pc = .user := by rw [ret, setProc_self]

theorem goes_goto {pc : Pc} (hm : m'.procs q = m.procs q)
    (h : Proc.Goes (m.procs q) { m.procs q with pc := pc }) :
    Proc.Goes (m.procs q) ((m'.goto q pc).procs q) := by rwa [goto, setProc_self, hm]

theorem goes_unref {pc : Pc} {o : Option Resource}
    (h : Proc.Goes (m.procs q) { m.procs q with pc := pc }) :
    Proc.Goes (m.procs q) (((m.goto q pc).unref q o).procs q) := by
  have hu : Still (m.goto q pc) ((m.goto q pc).unref q o) q := Still.unref
  exact (goes_goto rfl h).congr hu.1 hu.2.1 hu.2.2

theorem copySlot_of_ne (h : p ≠ c) : (m.copySlot q c i).procs p = m.procs p := by
  unfold copySlot
  split
  · exact setProc_of_ne h
  · exact setProc_of_ne h
  · exact setProc_of_ne h
  · exact setProc_of_ne h

theorem copySlot_pc : ((m.copySlot q c i).procs c).pc = (m.procs c).pc := by
  unfold copySlot
  split
  · rw [setSlot, setProc_self]
  · rw [setSlot, setProc_self]
  · rw [setSlot, setProc_self]
  · rw [setSlot, setProc_self]
    rfl

theorem openSlot_of_ne (h : p ≠ q) : (m.openSlot q r).2.procs p = m.procs p := by
  unfold openSlot
  split
  · exact setProc_of_ne h
  · rfl

theorem openSlot_array : ((m.openSlot q r).2.procs q).array 1 = (m.procs q).array 1 := by
  unfold openSlot
  split
  next i hi =>
    dsimp only
    rw [setSlot, setProc_self]
    exact Function.update_of_ne (Nat.ne_of_lt (freeSlot_some hi).1) ..
  · rfl

/-- The entry of a process that does not run: only a child that is being made changes. -/
def Beside (m m' : Machine) (p : Pid) : Prop :=
  Still m m' p ∨ (m.procs p).pc = .new ∧ ((m'.procs p).pc = .new ∨ (m'.procs p).pc = .user)

theorem Beside.goes (h : Beside m m' p) : Proc.Goes (m.procs p) (m'.procs p) :=
  h.elim .of_still fun h => .of_new h.1 h.2

theorem Beside.waited (h : Beside m m' p) (hw : (m'.procs p).pc = .waited c i) :
    (m.procs p).pc = .waited c i := by
  rcases h with h | ⟨-, h | h⟩
  · exact h.1.symm.trans hw
  · rw [h] at hw
    cases hw
  · rw [h] at hw
    cases hw

/-- A step of `q` and the other processes. -/
theorem stepPc_beside (I : m.Inv) (hp : p ≠ q) (h : m.stepPc q (m.procs q).pc = some m') :
    Beside m m' p := by
  have hgoto {pc : Pc} : Still m (m.goto q pc) p := Still.setProc hp
  cases hpc : (m.procs q).pc with
  | new | user | exited =>
    rw [hpc] at h
    cases h
  | addWorkingDir root =>
    rw [hpc] at h
    cases h
    exact .inl (hgoto.trans Still.unref)
  | setWorkingDir root =>
    rw [hpc] at h
    cases root with
    | true =>
      cases h
      exact .inl ((Still.setProc (m := m.ref rootdir) hp).trans (Still.setProc hp))
    | false =>
      cases h
      exact .inl ((Still.setProc
        (m := { m with nextObject := m.nextObject + 1 }.ref (.directory m.nextObject)) hp).trans
        (Still.setProc hp))
  | refRootDir =>
    rw [hpc] at h
    cases h
    exact .inl (Still.setProc (m := m.ref rootdir) hp)
  | forkMe c i =>
    obtain ⟨-, -, -, hnew, -, -⟩ := I.child_facts hpc
    rw [hpc] at h
    cases h
    split
    · rcases decEq p c with hne | rfl
      · exact .inl (.of_eq ((setProc_of_ne hp).trans (copySlot_of_ne hne)))
      · exact .inr ⟨hnew,
          .inl ((congrArg Proc.pc (setProc_of_ne hp)).trans (copySlot_pc.trans hnew))⟩
    · rcases decEq p c with hne | rfl
      · exact .inl (.of_eq ((setProc_of_ne hp).trans (setProc_of_ne hne)))
      · exact .inr ⟨hnew, .inr (congrArg Proc.pc ((setProc_of_ne hp).trans setProc_self))⟩
  | openChild c =>
    rw [hpc] at h
    cases h
    exact .inl (.of_eq ((setProc_of_ne hp).trans (openSlot_of_ne hp)))
  | startChild c id =>
    rw [hpc] at h
    cases h
    exact .inl (Still.setProc (m := { m with sched := m.sched.start c }) hp)
  | «open» file =>
    rw [hpc] at h
    cases h
    exact .inl (.of_eq ((setProc_of_ne hp).trans (openSlot_of_ne hp)))
  | wait c i =>
    rw [hpc] at h
    obtain ⟨s, -, h⟩ := Option.bind_eq_some_iff.mp h
    cases h
    exact .inl (Still.setProc (m := { m with sched := s }) hp)
  | waited c i =>
    rw [hpc] at h
    cases h
    exact .inl (Still.setProc (m := { m with sched := m.sched.up (doneEvent c) }) hp)
  | close i code =>
    rw [hpc] at h
    cases h
    exact .inl (hgoto.trans Still.unref)
  | clear i rc =>
    rw [hpc] at h
    cases h
    exact .inl ((Still.setProc hp).trans (Still.setProc hp))
  | closeAll exit i =>
    rw [hpc] at h
    cases h
    split
    · exact .inl (hgoto.trans Still.unref)
    · exact .inl hgoto
  | clearAll exit i =>
    rw [hpc] at h
    cases h
    exact .inl ((Still.setProc hp).trans (Still.setProc hp))
  | closeWorkingDir =>
    rw [hpc] at h
    simp only [stepPc] at h
    split at h
    · cases h
    · split at h
      · cases h
        exact .inl hgoto
      · cases h
        exact .inl (hgoto.trans Still.unref)
  | clearWorkingDir =>
    rw [hpc] at h
    cases h
    exact .inl ((Still.setProc hp).trans (Still.setProc hp))
  | signal =>
    rw [hpc] at h
    cases h
    exact .inl (Still.setProc (m := { m with sched := m.sched.up (doneEvent q) }) hp)
  | finish =>
    rw [hpc] at h
    obtain ⟨s, -, h⟩ := Option.bind_eq_some_iff.mp h
    cases h
    exact .inl (Still.setProc (m := { m with sched := s }) hp)

/-- The loop of `closeAll` of a process that exits, or that goes on in a new program. -/
theorem closeAll_goes {exit : Bool} {i : Nat} (hpc : (m.procs q).pc = .closeAll exit i) :
    Proc.Goes (m.procs q)
    ((if i < n then (m.goto q (.clearAll exit i)).unref q ((m.procs q).array i)
      else m.goto q (if exit then .closeWorkingDir else .user)).procs q) := by
  have hgo {pc : Pc} (he : pc.exits = exit) (hw : ∀ c i, pc ≠ .waited c i) :
      Proc.Goes (m.procs q) { m.procs q with pc := pc } := by
    cases exit with
    | true =>
      refine .exiting rfl (by rw [hpc]; rfl) he (fun _ => rfl) (fun hd => ?_) rfl
      rw [hpc] at hd
      cases hd
    | false =>
      exact .running rfl (by rw [hpc]; rfl) he (fun _ => rfl) fun c i h => absurd h (hw c i)
  split
  · exact goes_unref (hgo (by cases exit <;> rfl) (by simp))
  · exact goes_goto rfl (hgo (by cases exit <;> rfl) fun c i => by cases exit <;> simp)

theorem clearAll_goes {exit : Bool} {i : Nat} (hpc : (m.procs q).pc = .clearAll exit i)
    (hi : 1 < i) :
    Proc.Goes (m.procs q) (((m.setSlot q i none).goto q (.closeAll exit (i + 1))).procs q) := by
  have harr : (((m.setSlot q i none).goto q (.closeAll exit (i + 1))).procs q).array 1 =
      (m.procs q).array 1 := by
    rw [goto, setProc_self, setSlot, setProc_self]
    exact Function.update_of_ne (Nat.ne_of_lt hi) ..
  cases exit with
  | true =>
    refine .exiting goto_pc (by rw [hpc]; rfl) rfl (fun _ => harr) (fun hd => ?_) ?_
    · rw [hpc] at hd
      cases hd
    · rw [goto, setProc_self, setSlot, setProc_self]
  | false => exact .running goto_pc (by rw [hpc]; rfl) rfl (fun _ => harr) (by simp)

/-- `exit` and the slot of the working directory. -/
theorem closeWorkingDir_goes (hpc : (m.procs q).pc = .closeWorkingDir)
    (h : m.stepPc q .closeWorkingDir = some m') : Proc.Goes (m.procs q) (m'.procs q) := by
  have hgo {pc : Pc} (he : pc.exits = true) :
      Proc.Goes (m.procs q) { m.procs q with pc := pc } := by
    refine .exiting rfl (by rw [hpc]; rfl) he (fun _ => rfl) (fun hd => ?_) rfl
    rw [hpc] at hd
    cases hd
  simp only [stepPc] at h
  split at h
  · cases h
  · split at h
    · cases h
      exact goes_goto rfl (hgo rfl)
    · cases h
      exact goes_unref (hgo rfl)

theorem clearWorkingDir_goes (hpc : (m.procs q).pc = .clearWorkingDir) :
    Proc.Goes (m.procs q) (((m.setSlot q 1 none).goto q .signal).procs q) := by
  refine .exiting goto_pc (by rw [hpc]; rfl) rfl (fun hs => ?_) (fun hd => ?_) ?_
  · rw [hpc] at hs
    cases hs
  · rw [hpc] at hd
    cases hd
  · rw [goto, setProc_self, setSlot, setProc_self]

/-- A step of `q` and its own entry. -/
theorem stepPc_goes (I : m.Inv) (hq : m.sched.current = some q)
    (h : m.stepPc q (m.procs q).pc = some m') : Proc.Goes (m.procs q) (m'.procs q) := by
  have hfits := (I.rest.ok q).fits
  have hrun {pc : Pc} (he : (m.procs q).pc.exits = false) (he' : pc.exits = false)
      (hw : ∀ c i, pc ≠ .waited c i) : Proc.Goes (m.procs q) { m.procs q with pc := pc } :=
    .running rfl he he' (fun _ => rfl) fun c i h => absurd h (hw c i)
  cases hpc : (m.procs q).pc with
  | new | user | exited =>
    rw [hpc] at h
    cases h
  | addWorkingDir root =>
    rw [hpc] at h
    cases h
    exact goes_unref (hrun (by rw [hpc]; rfl) rfl (by simp))
  | setWorkingDir root =>
    have hset (hs : (m.procs q).pc.settled = true) : False := by
      rw [hpc] at hs
      cases hs
    rw [hpc] at h
    cases root with
    | true =>
      cases h
      exact .running goto_pc (by rw [hpc]; rfl) rfl (fun hs => (hset hs).elim) (by simp)
    | false =>
      cases h
      exact .running ret_pc (by rw [hpc]; rfl) rfl (fun hs => (hset hs).elim) (by simp)
  | refRootDir =>
    rw [hpc] at h
    cases h
    exact goes_goto rfl (hrun (by rw [hpc]; rfl) rfl (by simp))
  | forkMe c i =>
    have hne : q ≠ c := (I.rest.child_ne hq (by rw [hpc]; rfl)).symm
    rw [hpc] at h
    cases h
    split
    · exact goes_goto (copySlot_of_ne hne) (hrun (by rw [hpc]; rfl) rfl (by simp))
    · exact goes_goto (setProc_of_ne hne) (hrun (by rw [hpc]; rfl) rfl (by simp))
  | openChild c =>
    have ho := openSlot_array (m := m) (q := q) (r := .process c)
    rw [hpc] at h
    cases h
    refine .running goto_pc (by rw [hpc]; rfl) rfl (fun _ => ?_) (by simp)
    rw [goto, setProc_self]
    exact ho
  | startChild c id =>
    rw [hpc] at h
    cases h
    refine .running ret_pc (by rw [hpc]; rfl) rfl (fun _ => ?_) (by simp)
    rw [ret, setProc_self]
  | «open» file =>
    have ho := openSlot_array (m := { m with nextObject := m.nextObject + 1 }) (q := q)
      (r := if file then .file m.nextObject else .semaphore m.nextObject)
    rw [hpc] at h
    cases h
    refine .running ret_pc (by rw [hpc]; rfl) rfl (fun _ => ?_) (by simp)
    rw [ret, setProc_self]
    exact ho
  | wait c i =>
    rw [hpc] at h
    obtain ⟨s, -, h⟩ := Option.bind_eq_some_iff.mp h
    cases h
    refine goes_goto rfl (.running rfl (by rw [hpc]; rfl) rfl (fun _ => rfl) fun c' i' hw => ?_)
    cases hw
    exact .inl hpc
  | waited c i =>
    rw [hpc] at h
    cases h
    exact goes_goto rfl (hrun (by rw [hpc]; rfl) rfl (by simp))
  | close i code =>
    rw [hpc] at h
    cases h
    exact goes_unref (hrun (by rw [hpc]; rfl) rfl (by simp))
  | clear i rc =>
    rw [hpc] at h hfits
    cases h
    refine .running ret_pc (by rw [hpc]; rfl) rfl (fun _ => ?_) (by simp)
    rw [ret, setProc_self, setSlot, setProc_self]
    exact Function.update_of_ne (Ne.symm hfits) ..
  | closeAll exit i =>
    rw [hpc] at h
    cases h
    exact closeAll_goes hpc
  | clearAll exit i =>
    rw [hpc] at h hfits
    cases h
    exact clearAll_goes hpc hfits
  | closeWorkingDir => exact closeWorkingDir_goes hpc (hpc ▸ h)
  | clearWorkingDir =>
    rw [hpc] at h
    cases h
    exact clearWorkingDir_goes hpc
  | signal =>
    rw [hpc] at h
    cases h
    exact goes_goto rfl (.exiting rfl (by rw [hpc]; rfl) rfl (fun _ => rfl) (fun _ => rfl) rfl)
  | finish =>
    rw [hpc] at h
    obtain ⟨s, -, h⟩ := Option.bind_eq_some_iff.mp h
    cases h
    exact goes_goto rfl (.exiting rfl (by rw [hpc]; rfl) rfl (fun _ => rfl) (fun _ => rfl) rfl)

/-- A call on top leaves the entries alone. -/
theorem stepFrame_still {frames : List Frame} {f : Frame} (I : m.Inv)
    (hf : (m.procs q).frames = f :: frames) : Still m (m.stepFrame q frames f) p := by
  cases f with
  | checkReaper =>
    rw [stepFrame]
    split
    · exact Still.setFrames
    next kill _ _ => exact Still.setFrames (m := { m with sched := m.sched.checkReaper })
  | unref kill => exact Still.setFrames.trans Still.unref
  | destroy p' i =>
    rw [stepFrame]
    split
    · exact Still.setFrames.trans Still.unref
    · exact Still.setFrames
  | clearDestroyed p' i =>
    have hd := I.rest.destroys p' i q (.inr (by rw [hf]; exact List.mem_cons_self))
    have hnull :
        ((m.setProc q { m.procs q with frames := .destroy p' (i + 1) :: frames }).procs p').array
        i = none := by
      rw [setFrames_array]
      exact I.array_exited hd i
    rw [stepFrame, setSlot_eq_self hnull]
    exact Still.setFrames

/-- A system call of `q` and the other processes. -/
theorem exec_beside {c : Call} (I : m.Inv) (hp : p ≠ q) (h : c.exec m q = some m') :
    Beside m m' p := by
  have hset {x : Proc} : Beside m (m.setProc q x) p := .inl (Still.setProc hp)
  cases c with
  | exit code | semaphore =>
    cases h
    exact hset
  | fork =>
    have hnew : m.newTable q = some m' := h
    unfold newTable at hnew
    split at hnew
    · cases hnew
      obtain ⟨hpn, -⟩ := I.rest.unborn m.sched.nextId (Nat.le_refl _)
      unfold Beside
      rw [goto, Still, setProc_of_ne hp]
      rcases decEq p m.sched.nextId with hn | rfl
      · rw [setProc_of_ne hn]
        exact .inl ⟨rfl, rfl, rfl⟩
      · rw [setProc_self]
        exact .inr ⟨hpn, .inl hpn⟩
    · cases hnew
  | join i =>
    have hjoin : m.join q i = some m' := h
    unfold join at hjoin
    split at hjoin
    · cases hjoin
      exact hset
    split at hjoin
    · cases hjoin
      exact hset
    split at hjoin
    · cases hjoin
    · cases hjoin
      exact hset
    · cases hjoin
      exact hset
  | «open» found | execv found =>
    cases h
    split
    · exact hset
    · exact hset
  | close i =>
    cases h
    unfold close
    split
    · exact hset
    split
    · exact hset
    split
    · exact hset
    · exact hset
  | cd path =>
    cases path with
    | none =>
      cases h
      exact hset
    | some found =>
      cases h
      split
      · exact hset
      · exact hset

/-- A system call of `q` other than `exit`, and its own entry. -/
theorem exec_goes {c : Call} (I : m.Inv) (hpc : (m.procs q).pc = .user)
    (hc : ∀ code, c ≠ .exit code) (h : c.exec m q = some m') :
    Proc.Goes (m.procs q) (m'.procs q) := by
  have hgo {x : Proc} (ha : x.array = (m.procs q).array) (he : x.pc.exits = false)
      (hw : ∀ c i, x.pc ≠ .waited c i) : Proc.Goes (m.procs q) ((m.setProc q x).procs q) := by
    rw [setProc_self]
    exact .running rfl (by rw [hpc]; rfl) he (fun _ => by rw [ha]) fun c i h => absurd h (hw c i)
  have hret {rc : Int} : Proc.Goes (m.procs q) ((m.ret q rc).procs q) := hgo rfl rfl nofun
  cases c with
  | exit code => exact absurd rfl (hc code)
  | fork =>
    have hnew : m.newTable q = some m' := h
    unfold newTable at hnew
    split at hnew
    · cases hnew
      have hne : q ≠ m.sched.nextId := by
        rintro rfl
        have hunborn := (I.rest.unborn m.sched.nextId (Nat.le_refl _)).1
        rw [hpc] at hunborn
        cases hunborn
      exact goes_goto (setProc_of_ne hne) (.running rfl (by rw [hpc]; rfl) rfl (fun _ => rfl) nofun)
    · cases hnew
  | semaphore =>
    cases h
    exact hgo rfl rfl nofun
  | join i =>
    have hjoin : m.join q i = some m' := h
    unfold join at hjoin
    split at hjoin
    · cases hjoin
      exact hret
    split at hjoin
    · cases hjoin
      exact hret
    split at hjoin
    · cases hjoin
    · cases hjoin
      exact hgo rfl rfl nofun
    · cases hjoin
      exact hret
  | «open» found | execv found =>
    cases h
    split
    · exact hgo rfl rfl nofun
    · exact hret
  | close i =>
    cases h
    unfold close
    split
    · exact hret
    split
    · exact hret
    split
    · exact hret
    · exact hgo rfl rfl nofun
  | cd path =>
    cases path with
    | none =>
      cases h
      exact hret
    | some found =>
      cases h
      split
      · exact hgo rfl rfl nofun
      · exact hret

/-- **How the entries change in a step** that is not a call of `exit`. -/
theorem goes (I : m.Inv) (h : Step m e m') (he : ∀ code, e ≠ .call (.exit code)) (p : Pid) :
    Proc.Goes (m.procs p) (m'.procs p) := by
  obtain ⟨q, hq, hturn⟩ := h.turn
  clear h
  cases hturn with
  | sched hop h => exact .refl
  | checkReaper => exact .of_still Still.setFrames
  | call hpc hf hidle h =>
    rcases decEq p q with hne | rfl
    · exact (exec_beside I hne h).goes
    · exact exec_goes I hpc (fun code hc => he code (by rw [hc])) h
  | frame hf => exact .of_still (stepFrame_still I hf)
  | pc hf h =>
    rcases decEq p q with hne | rfl
    · exact (stepPc_beside I hne h).goes
    · exact stepPc_goes I hq h

end Machine

end K439.Table
