import K439.Table.Join

/-!
# Lifetimes

What the counts are for: who refers to a resource finds it alive, and a process is freed when the
reaper and all handles have dropped it, which is after its end.
-/

namespace K439.Table

open Sched (Pid)

variable {m m' : Machine} {p q : Pid} {i : Nat} {r : Resource} {es : List Event}
  {count : Nat → Int32} {hz : UInt32} {state : Pid → Sched.State}

/-- The counts of a machine and its deletions. -/
structure ReferencesCounted (m : Machine) : Prop where
  counted : RefCounted m.Holds fun r => (m.count r).toNat
  once : ∀ r, m.deleted r ≤ 1
  /-- what is deleted has no holder, and a slot that still names it is being cleared by its
  process -/
  dead : ∀ r, m.deleted r ≠ 0 → (m.count r = 0) ∧
    ∀ q i, (m.procs q).array i = some r → (m.procs q).pc.clears = some i

/-- **Every count is the number of references**, in every state of every run, and a resource is
deleted once and by its last holder. -/
theorem references_counted (h : Run Step (boot count hz state) es m) : ReferencesCounted m where
  counted := (run_inv h).refs.counted
  once _ := (run_inv h).refs.deleted_le
  dead r hd := by
    have R := (run_inv h).refs
    refine ⟨UInt32.toNat_inj.mp (R.counted.eq_zero (R.dead r hd).2), fun q i hr => ?_⟩
    by_contra hc
    exact (R.dead r hd).2 (.slot q i) ⟨hr, hc⟩

/-- Init forks a child, which exits, joins it and reaps it. -/
def forkAndReap : List Event :=
  steps 3 ++ .call .fork :: steps 103 ++ .sched .yield :: .call (.exit 7) :: steps 201 ++
    .call (.join 2) ::
    steps 4 ++ .checkReaper :: steps 2

set_option maxRecDepth 100000 in
theorem forkAndReap_run : ∃ m, Run Step (boot (fun _ => 0) 1000 fun _ => .READY) forkAndReap m ∧
    m.deleted (.process 2) = 1 := by
  have hrun : (forkAndReap.foldlM Event.next (boot (fun _ => 0) 1000 fun _ => .READY)).map
      (fun m : Machine => m.deleted (.process 2)) = some 1 := by
    decide +kernel
  obtain ⟨m, hm, hd⟩ := Option.map_eq_some_iff.mp hrun
  exact ⟨m, Run.of_foldlM (fun _ _ _ => id) hm, hd⟩

theorem references_counted_reap : ∃ m, m.deleted (.process 2) = 1 ∧ ReferencesCounted m := by
  obtain ⟨m, h, hd⟩ := forkAndReap_run
  exact ⟨m, hd, references_counted h⟩

/-- A process that is gone from the scheduler. -/
structure Ended (m : Machine) (p : Pid) : Prop where
  state : m.sched.state p = .TERMINATED
  current : m.sched.current ≠ some p
  ready : p ∉ m.sched.readyQueue
  waiting : ∀ q, p ∉ m.sched.waiting q
  reaper : p ∉ m.sched.reaperQueue
  slots : ∀ i, (m.procs p).array i = none

/-- A process at one place is at no other. -/
theorem Machine.Inv.not_at (I : m.Inv) (hp1 : p ≠ 1) {a b : Sched.Place}
    (ha : 0 < m.sched.cnt a p) (hab : a ≠ b) : m.sched.cnt b p = 0 := by
  have hni : m.sched.NotIdle p := fun h => hp1 (Option.some.inj (h.symm.trans I.rest.idle))
  apply Nat.eq_zero_of_not_pos
  intro hb
  exact hab (I.rest.sched.once.at_unique hni ha hb)

theorem Machine.Inv.ended (I : m.Inv) (h : p ∈ m.sched.reaped) : Ended m p := by
  have hpc := I.rest.queue p (List.mem_append_right _ h)
  have hp1 : p ≠ 1 := I.ne_idle (by simp [hpc])
  have hni : m.sched.NotIdle p := fun h => hp1 (Option.some.inj (h.symm.trans I.rest.idle))
  have hdone : 0 < m.sched.cnt .done p := List.count_pos_iff.mpr (List.mem_append_right _ h)
  exact {
    state := I.rest.sched.state .done p _ hni hdone rfl
    current := fun hc => by
      have h0 := I.not_at hp1 hdone (b := .current) (by simp)
      rw [Sched.Machine.cnt, if_pos hc] at h0
      cases h0
    ready := fun hr => by
      have h0 := I.not_at hp1 hdone (b := .ready) (by simp)
      exact Nat.ne_of_gt (List.count_pos_iff.mpr hr) h0
    waiting := fun w hw => by
      have h0 := I.not_at hp1 hdone (b := .wait w) (by simp)
      exact Nat.ne_of_gt (List.count_pos_iff.mpr hw) h0
    reaper := fun hr => I.not_reaped hr h
    slots := I.array_exited hpc }

/-- **A process is freed when the reaper and every handle have dropped it**, and then it has ended,
in every state of every run. -/
theorem process_freed (h : Run Step (boot count hz state) es m) :
    (m.deleted (.process p) = 1 ↔ p ∈ m.sched.reaped ∧
      (∀ q, .unref p ∉ (m.procs q).frames) ∧
      ∀ q i, (m.procs q).array i = some (.process p) → (m.procs q).pc.clears = some i) ∧
    (m.deleted (.process p) = 1 → Ended m p) := by
  have I := run_inv h
  have R := I.refs
  refine ⟨⟨fun hd => ?_, fun ⟨hr, hu, hs⟩ => ?_⟩,
    fun hd => I.ended (I.reaped_of_deleted (hd ▸ Nat.one_ne_zero)).1⟩
  · obtain ⟨hr, hpc⟩ := I.reaped_of_deleted (hd ▸ Nat.one_ne_zero)
    have hnone := (R.dead (.process p) (hd ▸ Nat.one_ne_zero)).2
    refine ⟨hr, fun q hu => hnone (.self p) ⟨rfl, by rw [hpc]; nofun, fun _ => ⟨q, hu⟩⟩,
      fun q i hs => ?_⟩
    by_contra hc
    exact hnone (.slot q i) ⟨hs, hc⟩
  · apply Nat.le_antisymm R.deleted_le
    apply Nat.pos_of_ne_zero
    intro h0
    have hpc := I.rest.queue p (List.mem_append_right _ hr)
    obtain ⟨a, ha⟩ := R.alive p (by rw [hpc]; nofun) h0
    cases a with
    | self p' =>
      obtain ⟨he, -, hpending⟩ := ha
      cases he
      obtain ⟨q, hq⟩ := hpending hr
      exact hu q hq
    | slot q i => exact ha.2 (hs q i ha.1)
    | resources p' => cases ha.1
    | rootdir => cases ha.1

theorem process_freed_reap : ∃ m, m.deleted (.process 2) = 1 ∧ Ended m 2 := by
  obtain ⟨m, h, hd⟩ := forkAndReap_run
  exact ⟨m, hd, (process_freed h).2 hd⟩

/-! ## The working directory -/

/-- The slots 0 and 1 of `p`. -/
structure WorkingDirectory (m : Machine) (p : Pid) : Prop where
  zero : (m.procs p).array 0 = none
  one : ∃ k, (m.procs p).array 1 = some (.directory k) ∧ m.deleted (.directory k) = 0

/-- Only `addWorkingDir` and `closeWorkingDir` write slot 1. -/
theorem Machine.Inv.keeps_one {e : Event} (I : m.Inv) (h : Step m e m')
    (hs : (m.procs p).pc.settled = true) :
    (m'.procs p).array 1 = (m.procs p).array 1 := by
  rcases e with op | _ | (code | _ | _ | _ | _ | _ | _ | _) | _
  case call.exit =>
    obtain ⟨q, hq, hturn⟩ := h.turn
    clear h
    cases hturn with
    | call hpc hf hidle h =>
      cases h
      rcases decEq p q with hne | rfl
      · rw [Machine.exit, Machine.setProc_of_ne hne]
      · rw [Machine.exit, Machine.setProc_self]
  all_goals exact (Machine.goes I h (by simp) p).dir hs

/-- **A process keeps its working directory until it exits**: whatever it and the others open,
close, execute or fork, slot 1 holds a directory that is not deleted, and changes only when `cd` has
found another one. -/
theorem working_directory_kept (h : Run Step (boot count hz state) es m) (hp : p ≠ 1)
    (hs : (m.procs p).pc.settled = true) :
    WorkingDirectory m p ∧
    (∀ e m', Step m e m' → (m'.procs p).array 1 = (m.procs p).array 1) ∧
      ∀ r ∈ m.opened, r ≠ 0 ∧ r ≠ 1 := by
  have I := run_inv h
  have ok := I.rest.ok p
  obtain ⟨k, hk⟩ := ok.settled hp hs
  have hholds : m.Holds (.slot p 1) (.directory k) := ⟨hk, ok.clears_ne hs⟩
  exact ⟨⟨ok.zero, k, hk, I.refs.not_deleted hholds⟩, fun e m' hstep => I.keeps_one hstep hs,
    I.rest.opened⟩

set_option maxRecDepth 100000 in
/-- The child of Init has a working directory. -/
theorem working_directory_kept_child : ∃ m, (m.procs 2).pc = .user ∧ WorkingDirectory m 2 := by
  have hrun : ((steps 3 ++ .call .fork :: steps 103).foldlM Event.next
      (boot (fun _ => 0) 1000 fun _ => .READY)).map
      (fun m : Machine => (m.procs 2).pc) = some .user := by
    decide +kernel
  obtain ⟨m, hm, hpc⟩ := Option.map_eq_some_iff.mp hrun
  have h : Run Step _ _ m := Run.of_foldlM (fun _ _ _ => id) hm
  exact ⟨m, hpc, (working_directory_kept h (by decide) (by rw [hpc]; rfl)).1⟩

end K439.Table
