import K439.Table.Fork

/-!
# Exit and the reaper

A process that has exited waits in the reaper queue. Whoever calls `checkReaper` drops the reference
the process has to itself, and whoever drops the last one runs its destructor and that of its table.
The table is empty by then: `exit` has cleared it.
-/

namespace K439.Table

open Sched (Pid SameLives)

variable {p q : Pid} {i : Nat}

namespace Machine

variable {m m' : Machine} {frames : List Frame}

theorem setFrames_pc :
    ((m.setProc q { m.procs q with frames := frames }).procs p).pc = (m.procs p).pc := by
  rcases decEq p q with hne | rfl
  · rw [setProc_of_ne hne]
  · rw [setProc_self]

theorem setFrames_array :
    ((m.setProc q { m.procs q with frames := frames }).procs p).array = (m.procs p).array := by
  rcases decEq p q with hne | rfl
  · rw [setProc_of_ne hne]
  · rw [setProc_self]

namespace Inv

/-- The slots of a process that has exited are null. -/
theorem array_exited (I : Inv m) (h : (m.procs p).pc = .exited) (i : Nat) :
    (m.procs p).array i = none :=
  (I.rest.ok p).emptied i (h ▸ trivial)

/-- A process in the reaper queue was not taken from it. -/
theorem not_reaped {kill : Pid} (I : Inv m) (h : kill ∈ m.sched.reaperQueue) :
    kill ∉ m.sched.reaped := by
  intro hr
  have hidle : m.sched.NotIdle kill := fun hi => by
    have h1 : kill = 1 := Option.some.inj (hi.symm.trans I.rest.idle)
    have hexited := I.rest.queue kill (List.mem_append_left _ h)
    rw [(I.rest.ok kill).idle h1] at hexited
    cases hexited
  have hcount : m.sched.cnt .done kill = List.count kill m.sched.reaperQueue +
      List.count kill m.sched.reaped :=
    List.count_append ..
  have h1 := List.count_pos_iff.mpr h
  have h2 := List.count_pos_iff.mpr hr
  obtain ⟨c, hc⟩ := I.rest.sched.once kill hidle
  have hdone := hc .done
  split at hdone <;> omega

/-- `Process::reaperQueue->removeHead()` -/
theorem takeReaped {kill : Pid} {queue : List Pid} (I : Inv m)
    (hq : m.sched.reaperQueue = kill :: queue) (hf : (m.procs q).frames = .checkReaper :: frames) :
    Inv ({ m with sched := m.sched.checkReaper }.setProc q
      { m.procs q with frames := .unref kill :: .checkReaper :: frames }) := by
  have hs : m.sched.checkReaper =
      { m.sched with reaperQueue := queue, reaped := m.sched.reaped ++ [kill] } := by
    rw [Sched.Machine.checkReaper, hq]
  have hkill : kill ∉ m.sched.reaped := I.not_reaped (by rw [hq]; exact List.mem_cons_self)
  have hpending (a : Pid) : .unref kill ∉ (m.procs a).frames :=
    fun h => hkill (I.rest.pending kill a h)
  have hold {p : Pid} (h : p ≠ kill) : .unref p ∈ Frame.unref kill :: .checkReaper :: frames ↔
      .unref p ∈ (m.procs q).frames := by
    rw [hf]
    simp [h]
  have hinv : Sched.Inv { m.sched with reaperQueue := queue, reaped := m.sched.reaped ++ [kill] } :=
    hs ▸ I.rest.sched.checkReaper
  have hrest : Rest { m with sched := m.sched.checkReaper } := by
    rw [hs]
    refine I.rest.setQueue hinv rfl rfl rfl (fun p hp => I.rest.queue p ?_) fun p =>
      List.mem_append_left _
    rw [hq]
    simpa [or_comm, or_left_comm, or_assoc] using hp
  refine ⟨hrest.setFrames (fun p hp => ?_) (fun p => ?_) (fun p i h => ?_), ?_⟩
  · rw [hs]
    rcases decEq p kill with hne | rfl
    · have hp' := (hold hne).mp hp
      refine ⟨List.mem_append_left _ (I.rest.pending p q hp'),
        fun a ha h => ha (I.rest.pendingOne p a q h hp')⟩
    · exact ⟨List.mem_append_right _ List.mem_cons_self, fun a _ => hpending a⟩
  · have hone := I.rest.pendingOnce p q
    rw [hf] at hone
    rcases decEq p kill with hne | rfl
    · rwa [List.count_cons_of_ne (by simp [Ne.symm hne])]
    · have h0 : frames.count (.unref p) = 0 := by
        apply List.count_eq_zero_of_not_mem
        intro h
        exact hpending q (hf ▸ List.mem_cons_of_mem _ h)
      rw [List.count_cons_self, List.count_cons_of_ne (by simp), h0]
  · refine I.rest.destroys p i q ?_
    rw [hf]
    simpa using h
  · refine I.refs.congr (fun a y => ?_) rfl rfl fun p hp => ?_
    · refine holds_congr (fun p => setFrames_pc) (fun p => setFrames_array) rfl fun p _ => ?_
      rcases decEq p kill with hne | rfl
      · have hmem : p ∈ m.sched.checkReaper.reaped ↔ p ∈ m.sched.reaped := by
          rw [hs, List.mem_append, List.mem_singleton]
          exact or_iff_left hne
        refine imp_congr hmem (exists_congr fun a => ?_)
        rcases decEq a q with ha | rfl
        · rw [setProc_of_ne ha]
        · rw [setProc_self]
          exact hold hne
      · refine iff_of_true (fun _ => ⟨q, ?_⟩) fun h => absurd h hkill
        rw [setProc_self]
        exact List.mem_cons_self
    · rcases decEq p q with hne | rfl
      · rwa [setProc_of_ne hne] at hp
      · rwa [setProc_self] at hp

/-- `Resource::unref(kill)` in `checkReaper`. -/
theorem unrefReaped {kill : Pid} (I : Inv m) (hf : (m.procs q).frames = .unref kill :: frames) :
    Inv ((m.setProc q { m.procs q with frames := frames }).unref q (some (.process kill))) := by
  have hmem : .unref kill ∈ (m.procs q).frames := by
    rw [hf]
    exact List.mem_cons_self
  have hreaped := I.rest.pending kill q hmem
  have hexited := I.rest.queue kill (List.mem_append_right _ hreaped)
  have hheld : m.Holds (.self kill) (.process kill) :=
    ⟨rfl, by rw [hexited]; nofun, fun _ => ⟨q, hmem⟩⟩
  have hrest : Rest (m.setProc q { m.procs q with frames := frames }) := by
    refine I.rest.setFrames_le (fun p => ?_) fun p i h => I.rest.destroys p i q ?_
    · rw [hf]
      exact List.count_le_count_cons
    · rw [hf]
      exact h.imp (List.mem_cons_of_mem _) (List.mem_cons_of_mem _)
  -- nobody else is about to drop the reference
  have hgone (a : Pid) :
      .unref kill ∉ ((m.setProc q { m.procs q with frames := frames }).procs a).frames := by
    rcases decEq a q with hne | rfl
    · rw [setProc_of_ne hne]
      exact fun h => hne (I.rest.pendingOne kill a q h hmem)
    · rw [setProc_self]
      have hone := I.rest.pendingOnce kill a
      rw [hf, List.count_cons_self] at hone
      exact List.count_eq_zero.mp (Nat.le_zero.mp (Nat.le_of_succ_le_succ hone))
  refine I.unref hheld hrest rfl rfl (fun b y => ?_) (fun p hp => by rwa [setFrames_pc] at hp)
    (fun h => by rwa [setFrames_pc] at h) nofun fun h => ?_
  · by_cases hb : b = .self kill
    · subst hb
      refine iff_of_false (fun h => ?_) fun h => h.2 ⟨rfl, h.1.1⟩
      obtain ⟨a, ha⟩ := h.2.2 hreaped
      exact hgone a ha
    · refine Iff.trans (holds_congr (fun p => setFrames_pc) (fun p => setFrames_array) rfl
        fun p hp => ?_)
        (and_iff_left fun h => hb h.1).symm
      have hne : p ≠ kill := fun h => hb (h ▸ hp)
      refine imp_congr Iff.rfl (exists_congr fun a => ?_)
      rcases decEq a q with ha | rfl
      · rw [setProc_of_ne ha]
      · rw [setProc_self, hf]
        simp [hne]
  · have hnew : (m.procs kill).pc = .new := setFrames_pc.symm.trans h
    rw [hexited] at hnew
    cases hnew

/-- One step in a call on top of what a process does. -/
theorem stepFrame {f : Frame} (I : Inv m) (hf : (m.procs q).frames = f :: frames) :
    Inv (m.stepFrame q frames f) := by
  have hpop (hp : ∀ p, f ≠ .unref p) :
      Inv (m.setProc q { m.procs q with frames := frames }) := by
    refine I.setFrames (fun p => ?_) fun p i h => I.rest.destroys p i q ?_
    · rw [hf, List.count_cons_of_ne (hp p)]
    · rw [hf]
      exact h.imp (List.mem_cons_of_mem _) (List.mem_cons_of_mem _)
  have hnext {p : Pid} (f' : Frame) (hd : (m.procs p).pc = .exited) (hp : ∀ p, f ≠ .unref p)
      (hf' : (∃ i, f' = .destroy p i) ∨ ∃ i, f' = .clearDestroyed p i) :
      Inv (m.setProc q { m.procs q with frames := f' :: frames }) := by
    refine I.setFrames (fun p => ?_) fun p' i h => ?_
    · rw [hf, List.count_cons_of_ne (hp p), List.count_cons_of_ne]
      rcases hf' with ⟨i, rfl⟩ | ⟨i, rfl⟩ <;> nofun
    · have htail (h : .destroy p' i ∈ frames ∨ .clearDestroyed p' i ∈ frames) :
          (m.procs p').pc = .exited := by
        refine I.rest.destroys p' i q ?_
        rw [hf]
        exact h.imp (List.mem_cons_of_mem _) (List.mem_cons_of_mem _)
      rcases hf' with ⟨j, rfl⟩ | ⟨j, rfl⟩
      · rcases h with h | h
        · rcases List.mem_cons.mp h with h | h
          · cases h
            exact hd
          · exact htail (.inl h)
        · exact htail (.inr ((List.mem_cons.mp h).resolve_left nofun))
      · rcases h with h | h
        · exact htail (.inl ((List.mem_cons.mp h).resolve_left nofun))
        · rcases List.mem_cons.mp h with h | h
          · cases h
            exact hd
          · exact htail (.inr h)
  cases f with
  | checkReaper =>
    rw [Machine.stepFrame]
    split
    · exact hpop nofun
    next kill queue hq => exact I.takeReaped hq hf
  | unref kill => exact I.unrefReaped hf
  | destroy p i =>
    have hd := I.rest.destroys p i q (.inl (by rw [hf]; exact List.mem_cons_self))
    rw [Machine.stepFrame]
    split
    · rw [I.array_exited hd]
      exact hnext _ hd nofun (.inr ⟨i, rfl⟩)
    · exact hpop nofun
  | clearDestroyed p i =>
    have hd := I.rest.destroys p i q (.inr (by rw [hf]; exact List.mem_cons_self))
    have I' := hnext (.destroy p (i + 1)) hd nofun (.inl ⟨i + 1, rfl⟩)
    have hnull :
        ((m.setProc q { m.procs q with frames := .destroy p (i + 1) :: frames }).procs p).array i =
        none := by
      rw [setFrames_array]
      exact I.array_exited hd i
    rw [Machine.stepFrame, setSlot_eq_self hnull]
    exact I'

/-- The end of `exit`. -/
theorem finish {s : Sched.Machine} (I : Inv m) (hq : m.sched.current = some q)
    (hpc : (m.procs q).pc = .finish) (h : m.sched.exit = some s) :
    Inv ({ m with sched := s }.goto q .exited) := by
  obtain ⟨hn, hi, ht, hqueue, hreaped⟩ := SameLives.exit I.rest.idle hq h
  have I₁ : Inv (m.goto q .exited) := by
    refine I.setProc hq (by rw [hpc]; nofun) rfl nofun rfl (fun _ _ => id) ?_ (fun h => by cases h)
      (fun _ => by rw [hpc]; rfl) fun j y => by rw [hpc]; exact Iff.rfl
    have hq1 : q ≠ 1 := I.ne_idle (by simp [hpc])
    exact { I.rest.ok q with
      fits := trivial
      emptied := fun i _ => (I.rest.ok q).emptied i (by rw [hpc]; trivial)
      settled := fun _ h => by cases h
      idle := fun h => absurd h hq1
      boots := nofun
      root := nofun }
  refine ⟨I₁.rest.setQueue (I.rest.sched.exit h) hn hi ht (fun p hp => ?_)
    (fun p hp => hreaped ▸ hp), I₁.refs.congr (fun a y => ?_) rfl rfl fun _ => id⟩
  · rw [hqueue, hreaped, List.append_assoc, List.mem_append, List.mem_append, List.mem_singleton]
      at hp
    rcases decEq p q with hne | rfl
    · have hp' : p ∈ m.sched.reaperQueue ++ m.sched.reaped :=
        List.mem_append.mpr (hp.imp id fun h => h.resolve_left hne)
      exact I₁.rest.queue p hp'
    · rw [goto, setProc_self]
  · refine holds_congr (fun _ => rfl) (fun _ => rfl) rfl fun p _ => ?_
    exact imp_congr (iff_of_eq (congrArg (p ∈ ·) hreaped)) Iff.rfl

end Inv

end Machine

end K439.Table
