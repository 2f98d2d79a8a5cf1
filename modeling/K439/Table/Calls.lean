import K439.Table.Steps

/-!
# System calls on the table

The statements of `open`, `close`, `closeAll`, `addWorkingDir`, `closeWorkingDir` and of the calls
around them. Each of them keeps `Inv`. `fork` and the reaper are elsewhere.
-/

namespace K439.Table

open Sched (Pid SameLives)

variable {x x' : Proc} {p q : Pid} {i : Nat}

/-- What a slot holds after a store to one of them. -/
theorem update_some {array : Nat → Option Resource} {r y : Resource} {j : Nat}
    (h : Function.update array i (some r) j = some y) : array j = some y ∨ j = i ∧ y = r := by
  rcases decEq j i with hne | rfl
  · rw [Function.update_of_ne hne] at h
    exact .inl h
  · rw [Function.update_self] at h
    exact .inr ⟨rfl, (Option.some.inj h).symm⟩

/-- A process that has a working directory, makes no child and has no half-cleared slot. -/
structure Pc.Calm (pc : Pc) : Prop where
  settled : pc.settled = true
  child : pc.child = none
  clears : pc.clears = none
  boots : pc.boots = false

namespace Pc

variable {pc : Pc}

theorem ne_new (h : pc.settled = true) : pc ≠ .new := by
  rintro rfl
  cases h

theorem ne_exited (h : pc.settled = true) : pc ≠ .exited := by
  rintro rfl
  cases h

theorem early_eq (h : pc.settled = true) : pc.early = false := by
  cases pc with
  | addWorkingDir root => cases root <;> first | rfl | cases h
  | setWorkingDir root => cases h
  | _ => rfl

end Pc

namespace Proc.Ok

theorem clears_ne (h : x.Ok p) (hx : x.pc.settled = true) : x.pc.clears ≠ some 1 := by
  have hs := h.fits
  revert hs hx
  generalize x.pc = pc
  intro hx hs hc
  cases pc with
  | setWorkingDir root => cases hx
  | clearWorkingDir => cases hx
  | clear i rc => exact hs (Option.some.inj hc)
  | clearAll exit i =>
    have h2 : 2 ≤ i := hs
    have h1 : i = 1 := Option.some.inj hc
    omega
  | _ => cases hc

/-- The process goes on, and some of its slots become null. -/
theorem goto (h : x.Ok p) (hp : p ≠ 1) (hx : x.pc.settled = true) (hboots : x'.pc.boots = false)
    (hs : x'.pc.Fits x'.array) (ha : ∀ j y, x'.array j = some y → x.array j = some y)
    (h1 : x'.pc.settled = true → x'.array 1 = x.array 1)
    (he : ∀ j, x'.pc.Emptied j → x'.array j = none) : x'.Ok p := by
  have hnone {j : Nat} (hj : x.array j = none) : x'.array j = none := by
    cases hy : x'.array j with
    | none => rfl
    | some y =>
      rw [ha j y hy] at hj
      cases hj
  exact {
    zero := hnone h.zero
    beyond := fun j hj => hnone (h.beyond j hj)
    fits := hs
    emptied := he
    settled := fun _ hset => h1 hset ▸ h.settled hp hx
    idle := fun h => absurd h hp
    boots := fun h => absurd h (hboots ▸ Bool.false_ne_true)
    root := fun h => by
      rw [h] at hboots
      cases hboots }

/-- The process goes on with a new resource in a slot. -/
theorem store {r : Resource} (h : x.Ok p) (hp : p ≠ 1) (hx : x.pc.settled = true)
    (hboots : x'.pc.boots = false) (hs : x'.pc.Fits x'.array) (he : ∀ j, ¬x'.pc.Emptied j)
    (h2 : 2 ≤ i) (hn : i < n) (ha : x'.array = Function.update x.array i (some r)) : x'.Ok p := by
  have hother {j : Nat} (hj : j ≠ i) : x'.array j = x.array j := by
    rw [ha, Function.update_of_ne hj]
  exact {
    zero := (hother (by omega)).trans h.zero
    beyond := fun j hj => (hother (by omega)).trans (h.beyond j hj)
    fits := hs
    emptied := fun j hj => absurd hj (he j)
    settled := fun _ _ => by
      rw [hother (by omega)]
      exact h.settled hp hx
    idle := fun h => absurd h hp
    boots := fun h => absurd h (hboots ▸ Bool.false_ne_true)
    root := fun h => by
      rw [h] at hboots
      cases hboots }

end Proc.Ok

namespace Machine

variable {m : Machine} {r : Resource}

namespace Inv

/-- The idle process makes no calls. -/
theorem ne_idle (I : Inv m) (h : (m.procs q).pc ≠ .user) : q ≠ 1 :=
  fun h1 => h ((I.rest.ok q).idle h1)

/-- The current process goes on, and the slot it was clearing is null. -/
theorem calm (I : Inv m) (hq : m.sched.current = some q) (hq1 : q ≠ 1)
    (hset : (m.procs q).pc.settled = true) (hboots : (m.procs q).pc.boots = false) (C : x.pc.Calm)
    (hf : x.frames = (m.procs q).frames) (hs : x.pc.Fits x.array)
    (he : ∀ j, x.pc.Emptied j → x.array j = none)
    (ha : ∀ j y, x.array j = some y ↔ (m.procs q).array j = some y ∧
      (m.procs q).pc.clears ≠ some j) :
    Inv (m.setProc q x) := by
  have hle j y (h : x.array j = some y) : (m.procs q).array j = some y := ((ha j y).mp h).1
  have h1 : x.array 1 = (m.procs q).array 1 := by
    apply Option.ext
    intro y
    rw [ha]
    exact and_iff_left ((I.rest.ok q).clears_ne hset)
  refine I.setProc hq (Pc.ne_exited hset) hf (Pc.ne_new C.settled) C.child hle
    ((I.rest.ok q).goto hq1 hset C.boots hs hle (fun _ => h1) he) (fun h => ?_)
      (fun _ => ?_) fun j y => ?_
  · rw [Pc.early_eq C.settled] at h
    cases h
  · rw [C.boots, hboots]
  · rw [C.clears, ha]
    exact and_iff_left nofun

/-- The current process goes on from a point where it clears no slot. -/
theorem next (I : Inv m) (hq : m.sched.current = some q) (hq1 : q ≠ 1) (C : (m.procs q).pc.Calm)
    (C' : x.pc.Calm) (hf : x.frames = (m.procs q).frames) (ha : x.array = (m.procs q).array)
    (hs : x.pc.Fits x.array) (he : ∀ j, x.pc.Emptied j → x.array j = none) :
    Inv (m.setProc q x) := by
  refine I.calm hq hq1 C.settled C.boots C' hf hs he fun j y => ?_
  rw [ha, C.clears]
  exact (and_iff_left nofun).symm

/-- The end of a system call that has done nothing. -/
theorem ret (I : Inv m) (hq : m.sched.current = some q) (hq1 : q ≠ 1) (C : (m.procs q).pc.Calm)
    {rc : Int} :
    Inv (m.ret q rc) :=
  I.next hq hq1 C ⟨rfl, rfl, rfl, rfl⟩ rfl rfl trivial fun _ h => h.elim

/-! ## Slots -/

/-- `Resource::unref(array[i])`, by a process with a working directory. -/
theorem unrefNext (I : Inv m) (hq : m.sched.current = some q) (hq1 : q ≠ 1)
    (C : (m.procs q).pc.Calm) {pc : Pc} (hset : pc ≠ .new) (hc : pc.child = none)
    (hboots : pc.boots = false) (hearly : pc.early = false) (hs : pc.Fits (m.procs q).array)
    (hi : pc.clears = some i) (he : ∀ j, pc.Emptied j → (m.procs q).array j = none) :
    Inv ((m.goto q pc).unref q ((m.procs q).array i)) := by
  refine I.unrefSlot hq (Pc.ne_exited C.settled) hset hc ?_ (fun h => ?_) (fun _ => ?_) C.clears hi
  · exact (I.rest.ok q).goto hq1 C.settled hboots hs (fun _ _ => id) (fun _ => rfl) he
  · rw [hearly] at h
    cases h
  · rw [C.boots, hboots]

/-- `array[i] = nullptr` -/
theorem clearSlot (I : Inv m) (hq : m.sched.current = some q) (hq1 : q ≠ 1)
    (hset : (m.procs q).pc.settled = true) (hboots : (m.procs q).pc.boots = false)
    (hi : (m.procs q).pc.clears = some i) (C : x.pc.Calm) (hf : x.frames = (m.procs q).frames)
    (hs : x.pc.Fits x.array) (he : ∀ j, x.pc.Emptied j → x.array j = none)
    (ha : x.array = Function.update (m.procs q).array i none) : Inv (m.setProc q x) := by
  refine I.calm hq hq1 hset hboots C hf hs he fun j y => ?_
  rw [ha, hi]
  rcases decEq j i with hne | rfl
  · rw [Function.update_of_ne hne]
    exact (and_iff_left fun h => hne (Option.some.inj h).symm).symm
  · rw [Function.update_self]
    exact iff_of_false nofun fun h => h.2 rfl

/-- `array[i] = Resource::ref(p)` of `open`. -/
theorem storeSlot (I : Inv m) (hrest : Rest (m.setProc q x)) (hset : (m.procs q).pc.settled = true)
    (hboots : (m.procs q).pc.boots = false) (hclears : (m.procs q).pc.clears = none)
    (hset' : x.pc.settled = true) (hboots' : x.pc.boots = false) (hclears' : x.pc.clears = none)
    (hf : x.frames = (m.procs q).frames) (hr : m.deleted r = 0) (hi : (m.procs q).array i = none)
    (ha : x.array = Function.update (m.procs q).array i (some r)) :
    Inv ((m.ref r).setProc q x) := by
  refine I.refSlot (i := i) hrest (iff_of_false (Pc.ne_new hset') (Pc.ne_new hset)) hf (fun _ => ?_)
    hr
    (fun h => ?_) fun j y => ?_
  · rw [hboots, hboots']
  · rw [h.1] at hi
    cases hi
  · rw [ha, hclears, hclears']
    rcases decEq j i with hne | rfl
    · rw [Function.update_of_ne hne]
      simp [hne]
    · rw [Function.update_self, hi]
      simp [eq_comm]

/-- `array[1] = Resource::ref(p)` after the old working directory was dropped. -/
theorem setWorkingDir {root : Bool} {k : Nat} (I : Inv m) (hq : m.sched.current = some q)
    (hpc : (m.procs q).pc = .setWorkingDir root) (hold : ¬m.New (.directory k))
    (hr : m.deleted (.directory k) = 0) (hroot : root = true ↔ k = 0)
    (hx : x.pc = if root then .refRootDir else .user) (hf : x.frames = (m.procs q).frames)
    (ha : x.array = Function.update (m.procs q).array 1 (some (.directory k))) :
    Inv ((m.ref (.directory k)).setProc q x) := by
  have hq1 : q ≠ 1 := I.ne_idle (by simp [hpc])
  have hpc' : x.pc ≠ .new ∧ x.pc.child = none ∧ x.pc.early = false ∧ x.pc.clears = none ∧
      x.pc.boots = root ∧ x.pc.Fits x.array ∧ ∀ j, ¬x.pc.Emptied j := by
    rw [hx]
    cases root <;> exact ⟨nofun, rfl, rfl, rfl, rfl, trivial, fun _ => id⟩
  obtain ⟨hnew, hc, hearly, hclears, hboots, hs, he⟩ := hpc'
  have hb : (m.procs q).pc.boots = root := by
    rw [hpc]
    cases root <;> rfl
  have hother {j : Nat} (hj : j ≠ 1) : x.array j = (m.procs q).array j := by
    rw [ha, Function.update_of_ne hj]
  have hone : x.array 1 = some (.directory k) := by rw [ha, Function.update_self]
  have hok : x.Ok q := {
    zero := (hother (Nat.zero_ne_one)).trans (I.rest.ok q).zero
    beyond := fun j hj =>
      (hother (by rintro rfl; exact absurd hj (by decide))).trans ((I.rest.ok q).beyond j hj)
    fits := hs
    emptied := fun j h => absurd h (he j)
    settled := fun _ _ => ⟨k, hone⟩
    idle := fun h => absurd h hq1
    boots := fun h => (I.rest.ok q).boots (hb.trans (hboots.symm.trans h))
    root := fun h => by
      rw [h] at hboots
      rw [hone, hroot.mp hboots.symm]
      rfl }
  have hstore : m.Storable q x (.directory k) := {
    old := hold
    type := nofun
    file := nofun
    early := fun h => by
      rcases decEq 0 q with hne | rfl
      · rw [setProc_of_ne hne] at h
        intro hk
        have hroot' := hroot.mpr (Resource.directory.inj hk)
        exact hne ((I.rest.ok q).boots (hb.trans hroot')).symm
      · rw [setProc_self, hearly] at h
        cases h }
  have hrest : Rest (m.setProc q x) := by
    refine I.rest.store (i := 1) (r := .directory k) hq (by simp [hpc]) hf hnew hc (fun j y h => ?_)
      hok fun h => ?_
    · rw [ha] at h
      exact (update_some h).imp id fun h => ⟨h.1, h.2, hstore⟩
    · rw [hearly] at h
      cases h
  refine I.refSlot (i := 1) hrest (iff_of_false hnew (by simp [hpc])) hf
    (fun _ => hboots.trans hb.symm) hr
    (fun h => ?_) fun j y => ?_
  · have hcl := h.2
    rw [hpc] at hcl
    exact hcl rfl
  · rw [hclears, hpc]
    rcases decEq j 1 with hne | rfl
    · rw [hother hne]
      simp [Pc.clears, hne, Ne.symm hne]
    · rw [hone]
      simp [Pc.clears, eq_comm]

end Inv

/-! ## The statements -/

theorem setProc_setProc {y : Proc} : (m.setProc q x).setProc q y = m.setProc q y := by
  rw [setProc, setProc, setProc, Function.update_idem]

theorem goto_setProc {pc : Pc} : (m.setProc q x).goto q pc = m.setProc q { x with pc := pc } := by
  rw [goto, setProc_self, setProc_setProc]

theorem ret_setProc {rc : Int} :
    (m.setProc q x).ret q rc = m.setProc q { x with pc := .user, returned := rc } := by
  rw [ret, setProc_self, setProc_setProc]

theorem setSlot_eq_self (h : (m.procs q).array i = none) : m.setSlot q i none = m := by
  have ha : Function.update (m.procs q).array i none = (m.procs q).array :=
    Function.update_eq_self_iff.mpr h.symm
  rw [setSlot, ha]
  exact congrArg (fun procs => { m with procs := procs }) (Function.update_eq_self ..)

theorem freeSlot_some {array : Nat → Option Resource} (h : freeSlot array = some i) :
    2 ≤ i ∧ i < n ∧ array i = none := by
  have hmem := List.mem_range'_1.mp (List.mem_of_find?_eq_some h)
  have hnone := List.find?_some h
  refine ⟨hmem.1, ?_, of_decide_eq_true hnone⟩
  have hn : 2 + (n - 2) = n := rfl
  exact hn ▸ hmem.2

namespace Inv

variable {m' : Machine}

/-- `addWorkingDir` up to its second statement. -/
theorem addWorkingDir {root : Bool} (I : Inv m) (hq : m.sched.current = some q)
    (hpc : (m.procs q).pc = .addWorkingDir root) :
    Inv ((m.goto q (.setWorkingDir root)).unref q ((m.procs q).array 1)) := by
  have hq1 : q ≠ 1 := I.ne_idle (by simp [hpc])
  refine I.unrefSlot hq (by simp [hpc]) nofun rfl ?_ (fun h => ?_) (fun _ => ?_)
    (by rw [hpc]; rfl) rfl
  · exact { I.rest.ok q with
      fits := trivial
      emptied := fun _ h => h.elim
      settled := fun _ h => by cases h
      idle := fun h => absurd h hq1
      boots := fun h => (I.rest.ok q).boots (by rw [hpc]; cases root <;> exact h)
      root := nofun }
  · rw [hpc]
    cases root <;> exact h
  · rw [hpc]
    cases root <;> rfl

/-- Init takes its second reference to the root directory. -/
theorem refRootDir (I : Inv m) (hq : m.sched.current = some q)
    (hpc : (m.procs q).pc = .refRootDir) : Inv ((m.ref rootdir).goto q .user) := by
  have hq0 : q = 0 := (I.rest.ok q).boots (by rw [hpc]; rfl)
  subst hq0
  have hslot : m.Holds (.slot 0 1) rootdir :=
    ⟨(I.rest.ok 0).root hpc, by rw [hpc]; exact (Option.some_ne_none 1).symm⟩
  have hok : Proc.Ok 0 { m.procs 0 with pc := .user } :=
    (I.rest.ok 0).goto (by simp) (by rw [hpc]; rfl) rfl trivial (fun _ _ => id)
      (fun _ => rfl) fun _ h => h.elim
  have hrest : Rest (m.goto 0 .user) :=
    I.rest.setProc hq (by simp [hpc]) rfl (by simp) rfl (fun _ _ => id) hok fun h => by cases h
  refine ⟨hrest.setCounts (fun _ => Nat.le_refl _) hrest.fresh fun h => (hrest.early h).1, ?_⟩
  refine I.refs.take (b := .rootdir) (fun h => ?_)
    (fun a y => ?_) rfl I.count_lt rfl (I.refs.not_deleted hslot)
    fun p hp => .inl ?_
  · have hboots := h.2
    rw [hpc] at hboots
    cases hboots
  · have hother (hr : a ≠ .rootdir) (hs : ∀ j, a ≠ .slot 0 j) :
        (m.goto 0 .user).Holds a y ↔ m.Holds a y :=
      holds_other (x := { m.procs 0 with pc := .user })
        (iff_of_false (by simp) (by simp [hpc])) rfl (absurd · hr) hs
    cases a with
    | rootdir => simp [Holds, goto, ref, hpc, Pc.boots]
    | slot p j =>
      refine Iff.trans ?_ (or_iff_left (by simp)).symm
      rcases decEq p 0 with hne | rfl
      · exact hother (by simp) fun j h => hne (Holder.slot.inj h).1
      · have hslot : (m.goto 0 .user).Holds (.slot 0 j) y ↔ (m.procs 0).array j = some y ∧
            Pc.user.clears ≠ some j :=
          holds_slot_self (x := { m.procs 0 with pc := .user })
        refine hslot.trans ?_
        rw [Holds, hpc]
        rfl
    | self p | resources p => exact (hother (by simp) (by simp)).trans (or_iff_left (by simp)).symm
  · rcases decEq p 0 with hne | rfl
    · rwa [goto, setProc_of_ne hne] at hp
    · simp [hpc]

/-- `resources->open(p)` of a new file or semaphore, with a free slot. -/
theorem openObject (rc : Int) (I : Inv m) (hq : m.sched.current = some q) (hq1 : q ≠ 1)
    (C : (m.procs q).pc.Calm) (hi : freeSlot (m.procs q).array = some i)
    (hr : r = .file m.nextObject ∨ r = .semaphore m.nextObject) :
    Inv (({ m with nextObject := m.nextObject + 1 }.ref r).setProc q { m.procs q with
      pc := .user
      array := Function.update (m.procs q).array i (some r)
      returned := rc }) := by
  obtain ⟨h2, hn, hnone⟩ := freeSlot_some hi
  have hnew : m.New r := by rcases hr with rfl | rfl <;> exact Nat.le_refl _
  have hold : ¬({ m with nextObject := m.nextObject + 1 } : Machine).New r := by
    rcases hr with rfl | rfl <;> exact Nat.not_succ_le_self _
  have hstore {x : Proc} : ({ m with nextObject := m.nextObject + 1 } : Machine).Storable q x r := {
    old := hold
    type := by rcases hr with rfl | rfl <;> nofun
    file := fun k _ p j h => (I.rest.old p j r h).1 hnew
    early := fun _ => by rcases hr with rfl | rfl <;> nofun }
  refine I.newObject.storeSlot (i := i)
    (I.newObject.rest.store (i := i) (r := r) hq (Pc.ne_exited C.settled) rfl nofun
    rfl (fun j y h => (update_some h).imp id fun h => ⟨h.1, h.2, hstore⟩) ?_ fun h => by
      cases h) C.settled
    C.boots C.clears rfl rfl rfl rfl (I.rest.fresh r hnew) hnone rfl
  exact (I.rest.ok q).store hq1 C.settled rfl trivial (fun _ => id) h2 hn rfl

/-- `resources->open(p)` of a new file or semaphore. -/
theorem «open» {file : Bool} (I : Inv m) (hq : m.sched.current = some q)
    (hpc : (m.procs q).pc = .open file) (h : m.stepPc q (.open file) = some m') : Inv m' := by
  have hq1 : q ≠ 1 := I.ne_idle (by simp [hpc])
  have C : (m.procs q).pc.Calm := by
    rw [hpc]
    exact ⟨rfl, rfl, rfl, rfl⟩
  simp only [stepPc, openSlot, Option.some.injEq] at h
  subst h
  split
  next i hi =>
    have hr : (if file = true then Resource.file m.nextObject else .semaphore m.nextObject) =
        .file m.nextObject ∨
        (if file = true then Resource.file m.nextObject else .semaphore m.nextObject) =
          .semaphore m.nextObject := by
      cases file
      · exact .inr rfl
      · exact .inl rfl
    have h2 := (freeSlot_some hi).1
    have I' := (I.openObject (i : Int) hq hq1 C hi hr).returned
      (v := (i : Int)) (by omega) (by omega)
    simpa only [Machine.ret, Machine.setSlot, Machine.setProc, Machine.ref, Function.update_self,
      Function.update_idem] using I'
  next hi =>
    exact ((I.newObject.returned (v := ERR_NO_ID) (by decide) (by decide)).ret hq hq1 C)

end Inv

end Machine

end K439.Table
