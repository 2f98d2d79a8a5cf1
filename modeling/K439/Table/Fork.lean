import K439.Table.Calls

/-!
# `fork`

The child has its number, then its table is filled slot by slot, it is constructed, stored in the
table of its parent and started. Nobody else knows it before, and each of these statements keeps
`Inv`.
-/

namespace K439.Table

open Sched (Pid SameLives)

variable {x x' : Proc} {p q c : Pid} {i : Nat}

/-- A process that makes the child `c`. -/
structure Pc.Parent (pc : Pc) (c : Pid) : Prop where
  settled : pc.settled = true
  child : pc.child = some c
  clears : pc.clears = none
  boots : pc.boots = false
  fits : ∀ array, pc.Fits array
  emptied : ∀ j, ¬pc.Emptied j

namespace Pc.Parent

theorem forkMe : (Pc.forkMe c i).Parent c := ⟨rfl, rfl, rfl, rfl, fun _ => trivial, fun _ => id⟩

theorem openChild : (Pc.openChild c).Parent c :=
  ⟨rfl, rfl, rfl, rfl, fun _ => trivial, fun _ => id⟩

theorem startChild {id : Int} : (Pc.startChild c id).Parent c :=
  ⟨rfl, rfl, rfl, rfl, fun _ => trivial, fun _ h => h⟩

end Pc.Parent

namespace Machine

variable {m m' : Machine} {r : Resource}

theorem tables_succ {sched : Sched.Machine} (h : sched.nextId = m.sched.nextId + 1) :
    Machine.tables { m with sched := sched } ≤ m.tables + 1 := by
  have hle : ((List.range (m.sched.nextId + 1)).filter fun p => m.deleted (.table p) = 0).length ≤
      m.tables + 1 := by
    rw [List.range_succ, List.filter_append, List.length_append]
    exact Nat.add_le_add_left (List.length_filter_le _ _) _
  rw [tables, h]
  exact hle

theorem goto_goto {pc pc' : Pc} (hne : c ≠ q) :
    (((m.goto q pc).ref r).setProc c x).goto q pc' = ((m.ref r).setProc c x).goto q pc' := by
  simp only [goto, setProc, ref, Function.update_self, Function.update_of_ne hne.symm,
    Function.update_comm hne, Function.update_idem]

theorem construct_goto (pc : Pc) {pc' : Pc} (hne : c ≠ q) :
    ((m.goto q pc).construct c).goto q pc' = (m.construct c).goto q pc' := by
  simp only [construct, goto, setProc, ref, Function.update_self, Function.update_of_ne hne,
    Function.update_of_ne hne.symm, Function.update_comm hne, Function.update_idem]

namespace Rest

/-- A child has its number. -/
theorem number (I : Rest m) (hroom : 4 * n * (m.tables + 1) ≤ heapSize) :
    Rest { m with sched := { m.sched with nextId := m.sched.nextId + 1 } } := by
  have hstep : Sched.Step m.sched .construct { m.sched with nextId := m.sched.nextId + 1 } :=
    ⟨trivial, rfl⟩
  exact { I with
    sched := I.sched.step hstep
    makes := fun p c h => by
      obtain ⟨h2, hlt, hn, hrest⟩ := I.makes p c h
      exact ⟨h2, Nat.lt_succ_of_lt hlt, hn, hrest⟩
    unborn := fun p h => I.unborn p (Nat.le_of_succ_le h)
    room := (Nat.mul_le_mul_left _ (tables_succ rfl)).trans hroom }

/-- The parent goes on with the child `c`, which it has made so far. -/
theorem makes_child (I : Rest m) (hq : m.sched.current = some q) (hc : x.pc.child = some c)
    (h2 : 2 ≤ c) (hlt : c < m.sched.nextId) (hn : c ∉ m.sched.started)
    (hmk : match x.pc with
      | .forkMe _ i => (m.procs c).pc = .new ∧ (∀ j, i ≤ j → (m.procs c).array j = none) ∧
        (1 < i → ∃ k, (m.procs c).array 1 = some (.directory k))
      | _ => (m.procs c).pc = .user) (p : Pid) : (m.setProc q x).Makes p := by
  intro c' h
  rcases decEq p q with hne | rfl
  · rw [setProc_of_ne hne] at h ⊢
    rw [setProc_of_ne (I.child_ne hq h)]
    exact I.makes p c' h
  · rw [setProc_self] at h ⊢
    obtain rfl := Option.some.inj (hc.symm.trans h)
    have hne : c ≠ p := by
      rintro rfl
      exact hn (I.current_started hq)
    rw [setProc_of_ne hne]
    exact ⟨h2, hlt, hn, hmk⟩

/-- The child `c` is constructed. -/
theorem born (I : Rest m) (h2 : 2 ≤ c) (hlt : c < m.sched.nextId) (hpc : (m.procs c).pc = .new)
    (hch : ∀ p, (m.procs p).pc.child ≠ some c)
    (hdir : ∃ k, (m.procs c).array 1 = some (.directory k)) : Rest (m.goto c .user) := by
  have hother {p : Pid} (h : p ≠ c) : (m.goto c .user).procs p = m.procs p := setProc_of_ne h
  have hself : (m.goto c .user).procs c = { m.procs c with pc := .user } := setProc_self
  have harr (p : Pid) : ((m.goto c .user).procs p).array = (m.procs p).array ∧
      ((m.goto c .user).procs p).frames = (m.procs p).frames := by
    rcases decEq p c with hne | rfl
    · rw [hother hne]
      exact ⟨rfl, rfl⟩
    · rw [hself]
      exact ⟨rfl, rfl⟩
  have hexited {p : Pid} (h : (m.procs p).pc = .exited) :
      ((m.goto c .user).procs p).pc = .exited := by
    rcases decEq p c with hne | rfl
    · rwa [hother hne]
    · rw [hpc] at h
      cases h
  have hnew {p : Pid} (h : ((m.goto c .user).procs p).pc = .new) : (m.procs p).pc = .new := by
    rcases decEq p c with hne | rfl
    · rwa [hother hne] at h
    · exact hpc
  have hN {r : Resource} (h : (m.goto c .user).New r) : m.New r := by
    cases r with
    | process p | table p => exact hnew h
    | semaphore k | file k | directory k => exact h
  have hchild {p c' : Pid} (h : ((m.goto c .user).procs p).pc.child = some c') :
      (m.procs p).pc.child = some c' := by
    rcases decEq p c with hne | rfl
    · rwa [hother hne] at h
    · rw [hself] at h
      cases h
  have h0 : (m.goto c .user).procs 0 = m.procs 0 :=
    hother (Nat.ne_of_lt (Nat.lt_of_lt_of_le Nat.two_pos h2))
  exact {
    sched := I.sched
    idle := I.idle
    started := fun p hp h => I.started p hp (hnew h)
    queue := fun p hp => hexited (I.queue p hp)
    pending := fun p q h => I.pending p q ((harr q).2 ▸ h)
    pendingOne := fun p a b h h' => I.pendingOne p a b ((harr a).2 ▸ h) ((harr b).2 ▸ h')
    pendingOnce := fun p q => by
      rw [(harr q).2]
      exact I.pendingOnce p q
    destroys := fun p i q h => hexited (I.destroys p i q ((harr q).2 ▸ h))
    ok := fun p => by
      rcases decEq p c with hne | rfl
      · rw [hother hne]
        exact I.ok p
      · rw [hself]
        exact { I.ok p with
          fits := trivial
          emptied := fun _ h => h.elim
          settled := fun _ _ => hdir
          idle := fun _ => rfl
          boots := nofun
          root := nofun }
    old := fun p i r h => by
      obtain ⟨hold, htype⟩ := I.old p i r ((harr p).1 ▸ h)
      exact ⟨fun h => hold (hN h), htype⟩
    fresh := fun r h => I.fresh r (hN h)
    object := I.object
    file := fun p i a j k h h' => I.file p i a j k ((harr p).1 ▸ h) ((harr a).1 ▸ h')
    makes := fun p c' h => by
      have hp := hchild h
      have hne : p ≠ c := by
        rintro rfl
        rw [hself] at h
        cases h
      have hne' : c' ≠ c := by
        rintro rfl
        exact hch p hp
      rw [hother hne, hother hne']
      exact I.makes p c' hp
    parent := fun p a c' h h' => I.parent p a c' (hchild h) (hchild h')
    unborn := fun p h => by
      have hne : p ≠ c := by
        rintro rfl
        exact Nat.not_le_of_lt hlt h
      rw [hother hne]
      exact I.unborn p h
    early := fun h => by
      rw [h0] at h
      exact ⟨(I.early h).1, fun p i h' => (I.early h).2 p i ((harr p).1 ▸ h')⟩
    room := I.room
    opened := I.opened }

end Rest

namespace Inv

/-- A process goes on as the parent of `c`. -/
theorem parent (I : Inv m) (hq : m.sched.current = some q) (hq1 : q ≠ 1)
    (hset : (m.procs q).pc.settled = true) (hcl : (m.procs q).pc.clears = none)
    (hboots : (m.procs q).pc.boots = false) (P : x.pc.Parent c) (hf : x.frames = (m.procs q).frames)
    (ha : x.array = (m.procs q).array) (hmk : ∀ p, (m.setProc q x).Makes p)
    (hpar : ∀ p ≠ q, (m.procs p).pc.child ≠ some c) : Inv (m.setProc q x) := by
  have hnew : x.pc = .new ↔ (m.procs q).pc = .new :=
    iff_of_false (Pc.ne_new P.settled) (Pc.ne_new hset)
  refine I.keep (I.rest.change (i := 0) (r := rootdir) hnew (fun h => absurd h (Pc.ne_exited hset))
    hf (fun j y h => ?_) ?_
    (I.rest.sched.fresh q (I.rest.current_started hq)) hmk (fun c' h p hp => ?_) fun h => ?_) hnew
      hf (fun _ => ?_)
    fun j y => ?_
  · exact .inl (ha ▸ h)
  · refine (I.rest.ok q).goto hq1 hset P.boots (P.fits _) (fun j y h => ha ▸ h)
      (fun _ => by rw [ha]) fun j h => ?_
    exact absurd h (P.emptied j)
  · obtain rfl := Option.some.inj (P.child.symm.trans h)
    exact hpar p hp
  · rw [Pc.early_eq P.settled] at h
    cases h
  · rw [P.boots, hboots]
  · rw [ha, P.clears, hcl]

/-- `fork` up to the loop of `forkMe`. -/
theorem newTable (I : Inv m) (hq : m.sched.current = some q) (hq1 : q ≠ 1)
    (hpc : (m.procs q).pc = .user) (h : m.newTable q = some m') : Inv m' := by
  unfold Machine.newTable at h
  split at h
  next hroom =>
    dsimp only at h
    cases h
    obtain ⟨hnew, hnone⟩ := I.rest.unborn m.sched.nextId (Nat.le_refl _)
    have hempty :
        ({ m with sched := { m.sched with nextId := m.sched.nextId + 1 } } : Machine).setProc
        m.sched.nextId
        { m.procs m.sched.nextId with array := fun _ => none } =
        { m with sched := { m.sched with nextId := m.sched.nextId + 1 } } := by
      have ha : (m.procs m.sched.nextId).array = fun _ => none := funext hnone
      rw [Machine.setProc, ← ha, Function.update_eq_self]
    rw [hempty]
    have I' : Inv { m with sched := { m.sched with nextId := m.sched.nextId + 1 } } :=
      ⟨I.rest.number hroom, I.refs.congr (fun a _ => by cases a <;> exact Iff.rfl) rfl rfl
        fun _ => id⟩
    have hidle : 1 < m.sched.nextId := I.rest.sched.fresh 1 (I.rest.sched.idle 1 I.rest.idle).1
    have hstarted : m.sched.nextId ∉ m.sched.started :=
      fun h => Nat.lt_irrefl _ (I.rest.sched.fresh _ h)
    refine I'.parent hq hq1 (by rw [hpc]; rfl) (by rw [hpc]; rfl)
      (by rw [hpc]; rfl) Pc.Parent.forkMe rfl rfl
      (I'.rest.makes_child hq rfl hidle (Nat.lt_succ_self _) hstarted ⟨hnew, fun j _ => hnone j,
        (by simp)⟩) fun p _ h => ?_
    exact Nat.lt_irrefl _ (I.rest.makes p _ h).2.1
  · cases h

/-- A slot of the child gets its resource. -/
theorem storeChild (I : Inv m) (h2 : 2 ≤ c) (hlt : c < m.sched.nextId)
    (hpc : (m.procs c).pc = .new) (hch : ∀ p, (m.procs p).pc.child ≠ some c)
    (hnone : (m.procs c).array i = none) (hi : i ≠ 0) (hn : i < n) (hst : ∀ x, m.Storable c x r)
    (hr : m.deleted r = 0) :
    Inv ((m.ref r).setProc c
      { m.procs c with array := Function.update (m.procs c).array i (some r) }) := by
  have hok : Proc.Ok c { m.procs c with array := Function.update (m.procs c).array i (some r) } := {
    zero := (Function.update_of_ne (Ne.symm hi) ..).trans (I.rest.ok c).zero
    beyond := fun j hj => (Function.update_of_ne (Nat.ne_of_gt (Nat.lt_of_lt_of_le hn hj)) ..).trans
      ((I.rest.ok c).beyond j hj)
    fits := by
      rw [hpc]
      trivial
    emptied := fun j h => by
      rw [hpc] at h
      exact h.elim
    settled := fun _ h => by
      rw [hpc] at h
      cases h
    idle := fun h => absurd h (Nat.ne_of_gt h2)
    boots := (I.rest.ok c).boots
    root := fun h => by
      rw [hpc] at h
      cases h }
  have hrest :
      Rest (m.setProc c
      { m.procs c with array := Function.update (m.procs c).array i (some r) }) := by
    refine I.rest.change (i := i)
      (r := r) Iff.rfl id rfl (fun j y h => ?_) hok hlt (fun p c' h => ?_)
      (fun c' h p _ => ?_) id
    · exact (update_some h).imp id fun h => ⟨h.1, h.2, hst _⟩
    · have hp : (m.procs p).pc.child = some c' := by
        rcases decEq p c with hne | rfl
        · rwa [setProc_of_ne hne] at h
        · rwa [setProc_self] at h
      have hne : c' ≠ c := by
        rintro rfl
        exact hch p hp
      have hpc' : ((m.setProc c
          { m.procs c with array := Function.update (m.procs c).array i (some r) }).procs p).pc =
          (m.procs p).pc := by
        rcases decEq p c with hne | rfl
        · rw [setProc_of_ne hne]
        · rw [setProc_self]
      rw [hpc', setProc_of_ne hne]
      exact I.rest.makes p c' hp
    · rw [hpc] at h
      cases h
  refine I.refSlot (i := i) hrest Iff.rfl rfl (fun _ => rfl) hr (fun h => ?_) fun j y => ?_
  · rw [h.1] at hnone
    cases hnone
  · simp only [hpc, Pc.clears]
    rcases decEq j i with hne | rfl
    · rw [Function.update_of_ne hne]
      simp [hne]
    · rw [Function.update_self, hnone]
      simp [eq_comm]

/-- What is known of the child in the loop of `forkMe`. -/
theorem child_facts (I : Inv m) (hpc : (m.procs q).pc = .forkMe c i) :
    2 ≤ c ∧ c < m.sched.nextId ∧ c ∉ m.sched.started ∧ (m.procs c).pc = .new ∧
      (∀ j, i ≤ j → (m.procs c).array j = none) ∧
      (1 < i → ∃ k, (m.procs c).array 1 = some (.directory k)) := by
  have hmk := I.rest.makes q c (by rw [hpc]; rfl)
  simp only [hpc] at hmk
  exact hmk

/-- A slot of the child stays null. -/
theorem forkMe_next (I : Inv m) (hq : m.sched.current = some q) (hpc : (m.procs q).pc = .forkMe c i)
    (h1 : i ≠ 1) : Inv (m.goto q (.forkMe c (i + 1))) := by
  obtain ⟨h2, hlt, hn, hnew, hfree, hdir⟩ := I.child_facts hpc
  refine I.parent hq (I.ne_idle (by simp [hpc])) (by rw [hpc]; rfl) (by rw [hpc]; rfl)
    (by rw [hpc]; rfl)
    Pc.Parent.forkMe rfl rfl (I.rest.makes_child hq rfl h2 hlt hn
      ⟨hnew, fun j hj => hfree j (Nat.le_of_succ_le hj),
      fun h => hdir (by omega)⟩) fun p hp h => ?_
  exact hp (I.rest.parent p q c h (by rw [hpc]; rfl))

/-- The parent without its child, which it has again after the next store. -/
theorem withoutChild (I : Inv m) (hq : m.sched.current = some q)
    (hpc : (m.procs q).pc = .forkMe c i) : Inv (m.goto q .user) :=
  I.calm hq (I.ne_idle (by simp [hpc])) (by rw [hpc]; rfl) (by rw [hpc]; rfl)
    ⟨rfl, rfl, rfl, rfl⟩ rfl trivial
    (fun _ h => h.elim) fun j y => by
      rw [hpc]
      exact (and_iff_left nofun).symm

theorem childless (I : Inv m) (hpc : (m.procs q).pc = .forkMe c i) (p : Pid) :
    ((m.goto q .user).procs p).pc.child ≠ some c := by
  rcases decEq p q with hp | rfl
  · rw [goto, setProc_of_ne hp]
    exact fun h => hp (I.rest.parent p q c h (by rw [hpc]; rfl))
  · rw [goto, setProc_self]
    simp [Pc.child]

/-- `tp->array[i] = Resource::ref(this->array[i])`, also of a file that was copied for it. -/
theorem copyRef (I : Inv m) (hq : m.sched.current = some q) (hpc : (m.procs q).pc = .forkMe c i)
    (hi : i ≠ 0) (hn : i < n) (hst : ∀ x, (m.goto q .user).Storable c x r)
    (hr : m.deleted r = 0) (hdir : i = 1 → ∃ k, r = .directory k) :
    Inv (((m.ref r).setSlot c i (some r)).goto q (.forkMe c (i + 1))) := by
  obtain ⟨h2, hlt, hnst, hnew, hfree, hone⟩ := I.child_facts hpc
  have hne : c ≠ q := I.rest.child_ne hq (by rw [hpc]; rfl)
  have hq1 : q ≠ 1 := I.ne_idle (by simp [hpc])
  -- the child has no parent while its slot is stored
  have I₁ := I.withoutChild hq hpc
  have hc : (m.goto q .user).procs c = m.procs c := setProc_of_ne hne
  have I₂ := I₁.storeChild (i := i) h2 hlt (by rw [hc, hnew]) (I.childless hpc)
    (by rw [hc]; exact hfree i (Nat.le_refl _)) hi hn hst hr
  have heq : ((m.ref r).setSlot c i (some r)).goto q (.forkMe c (i + 1)) =
      (((m.goto q .user).ref r).setProc c
      { m.procs c with array := Function.update (m.procs c).array i (some r) }).goto q
        (.forkMe c (i + 1)) :=
    (goto_goto hne).symm
  rw [heq]
  rw [hc] at I₂
  have hself : (((m.goto q .user).ref r).setProc c
      { m.procs c with array := Function.update (m.procs c).array i (some r) }).procs q =
      { m.procs q with pc := .user } := by
    rw [setProc_of_ne hne.symm]
    exact setProc_self
  refine I₂.parent hq hq1 (by rw [hself]; rfl) (by rw [hself]; rfl)
    (by rw [hself]; rfl) Pc.Parent.forkMe rfl rfl
    (I₂.rest.makes_child hq rfl h2 hlt hnst ?_) fun p hp h => ?_
  · rw [setProc_self]
    refine ⟨hnew, fun j hj => ?_, fun h => ?_⟩
    · exact (Function.update_of_ne (Nat.ne_of_gt hj) ..).trans (hfree j (Nat.le_of_succ_le hj))
    · rcases decEq 1 i with h1 | rfl
      · obtain ⟨k, hk⟩ := hone (by omega)
        exact ⟨k, (Function.update_of_ne h1 ..).trans hk⟩
      · obtain ⟨k, rfl⟩ := hdir rfl
        exact ⟨k, by simp⟩
  · rcases decEq p c with hp | rfl
    · rw [setProc_of_ne hp] at h
      exact I.childless hpc p h
    · rw [setProc_self, hnew] at h
      cases h

/-- One turn of the loop of `forkMe`. -/
theorem copySlot (I : Inv m) (hq : m.sched.current = some q) (hpc : (m.procs q).pc = .forkMe c i)
    (hn : i < n) : Inv ((m.copySlot q c i).goto q (.forkMe c (i + 1))) := by
  obtain ⟨k₁, hk₁⟩ := (I.rest.ok q).settled (I.ne_idle (by simp [hpc])) (by rw [hpc]; rfl)
  have hnull : (m.procs q).array i = none ∨ (∃ p, (m.procs q).array i = some (.process p)) →
      Inv ((m.setSlot c i none).goto q (.forkMe c (i + 1))) := by
    intro h
    obtain ⟨-, -, -, -, hfree, -⟩ := I.child_facts hpc
    rw [setSlot_eq_self (hfree i (Nat.le_refl _))]
    refine I.forkMe_next hq hpc ?_
    rintro rfl
    rcases h with h | ⟨p, h⟩
    · rw [hk₁] at h
      cases h
    · rw [hk₁] at h
      cases h
  have hgo p : ((m.goto q .user).procs p).pc = .new ↔ (m.procs p).pc = .new := by
    rcases decEq p q with hne | rfl
    · rw [goto, setProc_of_ne hne]
    · rw [goto, setProc_self, hpc]
      exact iff_of_false (by simp) (by simp)
  have hi (hr : (m.procs q).array i ≠ none) : i ≠ 0 := by
    rintro rfl
    exact hr (I.rest.ok q).zero
  unfold Machine.copySlot
  split
  next h => exact hnull (.inl h)
  next p h => exact hnull (.inr ⟨p, h⟩)
  next k h =>
    have hheld : m.Holds (.slot q i) (.file k) := ⟨h, by simp [hpc, Pc.clears]⟩
    have hnew : m.New (.file m.nextObject) := Nat.le_refl _
    have hone : m.count (.file k) = m.count (.file m.nextObject) + 1 := by
      have h1 : m.count (.file k) = 1 :=
        eq_one_iff.mpr (I.refs.counted.eq_one fun b => I.rest.holds_file hheld)
      have h0 : m.count (.file m.nextObject) = 0 := by
        apply UInt32.toNat_inj.mp
        exact I.refs.counted.eq_zero fun a ha => I.rest.holds_old ha hnew
      rw [h1, h0]
      rfl
    rw [hone]
    refine I.newObject.copyRef hq hpc (hi (by simp [h])) hn (fun x => ?_)
      (I.rest.fresh _ hnew) fun h1 => ?_
    · exact {
        old := Nat.not_succ_le_self _
        type := by simp [Resource.type]
        file := fun _ _ p j hj => by
          have hj' : (m.procs p).array j = some (.file m.nextObject) := by
            rcases decEq p q with hne | rfl
            · rwa [goto, setProc_of_ne hne] at hj
            · rwa [goto, setProc_self] at hj
          exact (I.rest.old p j _ hj').1 hnew
        early := fun _ => by simp [rootdir] }
    · subst h1
      rw [hk₁] at h
      cases h
  next r hp hf h =>
    have hold := I.rest.old q i r h
    have hheld : m.Holds (.slot q i) r := ⟨h, by simp [hpc, Pc.clears]⟩
    refine I.copyRef hq hpc (hi (by simp [h])) hn (fun x => ?_)
      (I.refs.not_deleted hheld) fun h1 => ?_
    · exact {
        old := fun hnew => hold.1 ((Rest.New.congr hgo rfl).mp hnew)
        type := hold.2
        file := fun k hk => absurd hk (hf k)
        early := fun he hr => by
          have hc0 : (0 : Pid) ≠ c :=
            (Nat.ne_of_lt (Nat.lt_of_lt_of_le Nat.two_pos (I.child_facts hpc).1))
          rw [setProc_of_ne hc0] at he
          rcases decEq 0 q with hne | rfl
          · rw [goto, setProc_of_ne hne] at he
            exact (I.rest.early he).2 q i (hr ▸ h)
          · rw [goto, setProc_self] at he
            cases he }
    · subst h1
      rw [hk₁] at h
      exact ⟨k₁, (Option.some.inj h).symm⟩

/-- The constructor of `Process`, for a table that is filled. -/
theorem construct (I : Inv m) (h2 : 2 ≤ c) (hlt : c < m.sched.nextId)
    (hpc : (m.procs c).pc = .new) (hch : ∀ p, (m.procs p).pc.child ≠ some c)
    (hdir : ∃ k, (m.procs c).array 1 = some (.directory k)) : Inv (m.construct c) := by
  have hborn := I.rest.born h2 hlt hpc hch hdir
  have hother {p : Pid} (h : p ≠ c) : (m.goto c .user).procs p = m.procs p := setProc_of_ne h
  have hself : (m.goto c .user).procs c = { m.procs c with pc := .user } := setProc_self
  have hnone (a : Holder) (r : Resource) (hr : m.New r) : ¬m.Holds a r :=
    fun ha => I.rest.holds_old ha hr
  have hp : m.New (.process c) := hpc
  have ht : m.New (.table c) := hpc
  have hreaped : c ∉ m.sched.reaped := fun h => by
    rw [I.rest.queue c (List.mem_append_right _ h)] at hpc
    cases hpc
  have hframes (q : Pid) : ((m.goto c .user).procs q).frames = (m.procs q).frames := by
    rcases decEq q c with hne | rfl
    · rw [hother hne]
    · rw [hself]
  have hholds a y : (m.construct c).Holds a y ↔
      (m.Holds a y ∨ a = .resources c ∧ y = .table c) ∨ a = .self c ∧ y = .process c := by
    have hgo : (m.construct c).Holds a y ↔ (m.goto c .user).Holds a y := by
      cases a <;> exact Iff.rfl
    rw [hgo]
    cases a with
    | self p =>
      rcases decEq p c with hne | rfl
      · simp only [Holds, hother hne, hframes]
        simp [hne, goto]
      · simp [Holds, hpc, hreaped, goto]
    | slot p j =>
      rcases decEq p c with hne | rfl
      · simp only [Holds, hother hne]
        simp
      · simp [Holds, hself, hpc, Pc.clears]
    | resources p =>
      rcases decEq p c with hne | rfl
      · simp only [Holds, hother hne]
        simp [hne, goto]
      · have hd := I.rest.fresh _ ht
        simp [Holds, hpc, hd, goto]
    | rootdir =>
      have hne : 0 ≠ c := Nat.ne_of_lt (Nat.lt_of_lt_of_le Nat.two_pos h2)
      simp only [Holds, hother hne]
      simp
  have hzero {r : Resource} (hr : m.New r) : m.count r = 0 := by
    apply UInt32.toNat_inj.mp
    exact I.refs.counted.eq_zero fun a => hnone a r hr
  have hcount y : (m.construct c).count y = if y = .process c then 1 else if y = .table c then 1
      else m.count y := by
    have hc : (m.construct c).count =
        Function.update (Function.update m.count (.table c) (m.count (.table c) + 1))
      (.process c) 1 := rfl
    rw [hc, hzero ht, Function.update_apply, Function.update_apply]
    rfl
  refine ⟨hborn.setCounts (fun _ => Nat.le_refl _) hborn.fresh fun h => (hborn.early h).1, ?_,
    ?_, ?_, ?_⟩
  · have htable :=
      I.refs.counted.take (x := .table c) (a := .resources c) (hnone _ _ ht) (fun b y => Iff.rfl)
      (fun _ => rfl)
    refine htable.take (x := .process c) (a := .self c) ?_ hholds fun y => ?_
    · rintro (h | ⟨-, h⟩)
      · exact hnone _ _ hp h
      · cases h
    · have ht0 : (m.count (.table c)).toNat = 0 := congrArg UInt32.toNat (hzero ht)
      have hp0 : (m.count (.process c)).toNat = 0 := congrArg UInt32.toNat (hzero hp)
      rw [hcount]
      split
      next h => simp [hp0]
      next h =>
        split
        next h => simp [ht0]
        next h => rfl
  · intro y h
    refine ⟨(I.refs.dead y h).1, fun a ha => ?_⟩
    rcases (hholds a y).mp ha with (ha | ⟨-, rfl⟩) | ⟨-, rfl⟩
    · exact (I.refs.dead y h).2 a ha
    · exact h (I.rest.fresh _ ht)
    · exact h (I.rest.fresh _ hp)
  · intro p hp' h
    rcases decEq p c with hne | rfl
    · obtain ⟨a, ha⟩ := I.refs.alive p (by rwa [← hother hne]) h
      exact ⟨a, (hholds a _).mpr (.inl (.inl ha))⟩
    · exact ⟨.self p, (hholds _ _).mpr (.inr ⟨rfl, rfl⟩)⟩
  · exact I.refs.table

/-- The end of the loop. -/
theorem endForkMe (I : Inv m) (hq : m.sched.current = some q) (hpc : (m.procs q).pc = .forkMe c i)
    (hn : n ≤ i) : Inv ((m.construct c).goto q (.openChild c)) := by
  obtain ⟨h2, hlt, hnst, hnew, -, hone⟩ := I.child_facts hpc
  have hne : c ≠ q := I.rest.child_ne hq (by rw [hpc]; rfl)
  have hq1 : q ≠ 1 := I.ne_idle (by simp [hpc])
  have I₁ := I.withoutChild hq hpc
  have hc : (m.goto q .user).procs c = m.procs c := setProc_of_ne hne
  have I₂ := I₁.construct h2 hlt (by rw [hc, hnew]) (I.childless hpc) (by
    rw [hc]
    exact hone (Nat.lt_of_lt_of_le (by decide) hn))
  rw [← construct_goto .user hne]
  have hself : ((m.goto q .user).construct c).procs q = { m.procs q with pc := .user } :=
    (setProc_of_ne hne.symm).trans setProc_self
  refine I₂.parent hq hq1 (by rw [hself]; rfl) (by rw [hself]; rfl)
    (by rw [hself]; rfl) Pc.Parent.openChild rfl rfl
    (I₂.rest.makes_child hq rfl h2 hlt hnst ?_) fun p hp h => ?_
  · exact congrArg Proc.pc (setProc_self (m := (m.goto q .user).ref (.table c)))
  · rcases decEq p c with hp | rfl
    · exact I.childless hpc p (by rwa [Machine.construct, goto, setProc_of_ne hp] at h)
    · rw [Machine.construct, goto, setProc_self] at h
      cases h

/-- What is known of the child after its construction. -/
theorem made_facts (I : Inv m) (hc : (m.procs q).pc.child = some c)
    (hpc : ∀ i, (m.procs q).pc ≠ .forkMe c i) :
    2 ≤ c ∧ c < m.sched.nextId ∧ c ∉ m.sched.started ∧ (m.procs c).pc = .user := by
  obtain ⟨h2, hlt, hn, hmk⟩ := I.rest.makes q c hc
  refine ⟨h2, hlt, hn, ?_⟩
  split at hmk
  next c' i h =>
    rw [h] at hc
    exact absurd (h.trans (congrArg (Pc.forkMe · i) (Option.some.inj hc))) (hpc i)
  next => exact hmk

/-- `resources->open(child)` -/
theorem openChild (I : Inv m) (hq : m.sched.current = some q) (hpc : (m.procs q).pc = .openChild c)
    (h : m.stepPc q (.openChild c) = some m') : Inv m' := by
  obtain ⟨h2, hlt, hn, huser⟩ := I.made_facts (by rw [hpc]; rfl) fun i => by simp [hpc]
  have hq1 : q ≠ 1 := I.ne_idle (by simp [hpc])
  have hset : (m.procs q).pc.settled = true := by rw [hpc]; rfl
  have hboots : (m.procs q).pc.boots = false := by rw [hpc]; rfl
  have hcl : (m.procs q).pc.clears = none := by rw [hpc]; rfl
  have hpar p (hp : p ≠ q) : (m.procs p).pc.child ≠ some c :=
    fun h => hp (I.rest.parent p q c h (by rw [hpc]; rfl))
  simp only [stepPc, openSlot, Option.some.injEq] at h
  subst h
  split
  next i hi =>
    obtain ⟨hi2, hin, hnone⟩ := freeSlot_some hi
    have hdel : m.deleted (.process c) = 0 := by
      by_contra hd
      have hexited := (I.reaped_of_deleted hd).2
      rw [huser] at hexited
      cases hexited
    have hstore : m.Storable q
        { m.procs q with
          pc := .startChild c i
          array := Function.update (m.procs q).array i (some (.process c)) } (.process c) := {
      old := fun h : (m.procs c).pc = .new => by
        rw [huser] at h
        cases h
      type := by simp [Resource.type]
      file := fun _ => by simp
      early := fun _ => by simp [rootdir] }
    have hrest : Rest (m.setProc q
        { m.procs q with
          pc := .startChild c i
          array := Function.update (m.procs q).array i (some (.process c)) }) := by
      refine I.rest.change (i := i) (r := .process c) (iff_of_false (by simp) (Pc.ne_new hset))
        (fun h => absurd h (Pc.ne_exited hset)) rfl (fun j y h => (update_some h).imp id fun h =>
          ⟨h.1, h.2, hstore⟩)
        ((I.rest.ok q).store hq1 hset rfl trivial (fun _ h => h) hi2 hin rfl)
        (I.rest.sched.fresh q (I.rest.current_started hq))
          (I.rest.makes_child hq rfl h2 hlt hn huser)
        (fun c' h p hp => ?_) fun h => by cases h
      obtain rfl := Option.some.inj (h : some c = some c')
      exact hpar p hp
    have I' := (I.storeSlot hrest hset hboots hcl rfl rfl rfl rfl hdel hnone rfl).returned
        (v := (i : Int)) (by omega)
      (by omega)
    simpa only [Machine.goto, Machine.setSlot, Machine.setProc, Machine.ref, Function.update_self,
      Function.update_idem] using I'
  next hi =>
    have I' := I.returned (v := ERR_NO_ID) (by decide) (by decide)
    exact I'.parent hq hq1 hset hcl hboots Pc.Parent.startChild rfl rfl
      (I'.rest.makes_child hq rfl h2 hlt hn huser) hpar

end Inv

/-- `child->start()` -/
theorem Rest.start (I : Rest m) (hlt : c < m.sched.nextId) (hn : c ∉ m.sched.started)
    (hpc : (m.procs c).pc ≠ .new) (hch : ∀ p, (m.procs p).pc.child ≠ some c) :
    Rest { m with sched := m.sched.start c } := by
  have hstep : Sched.Step m.sched (.start c) (m.sched.start c) := ⟨⟨hlt, hn⟩, rfl⟩
  have heq : (m.sched.start c).nextId = m.sched.nextId ∧
      (m.sched.start c).idleProcess = m.sched.idleProcess ∧
      (m.sched.start c).started = m.sched.started ++ [c] ∧
        (m.sched.start c).reaperQueue = m.sched.reaperQueue ∧
      (m.sched.start c).reaped = m.sched.reaped := by
    rw [Sched.Machine.start, Sched.makeReady_eq]
    exact ⟨rfl, rfl, rfl, rfl, rfl⟩
  obtain ⟨hnext, hidle, hstarted, hqueue, hreaped⟩ := heq
  exact { I with
    sched := I.sched.step hstep
    idle := hidle.trans I.idle
    started := fun p hp => by
      rcases List.mem_append.mp (hstarted ▸ hp) with hp | hp
      · exact I.started p hp
      · exact List.mem_singleton.mp hp ▸ hpc
    queue := fun p hp => I.queue p (by rw [← hqueue, ← hreaped]; exact hp)
    pending := fun p q hp => hreaped ▸ I.pending p q hp
    makes := fun p c' h => by
      obtain ⟨h2, hlt', hn', hmk⟩ := I.makes p c' h
      refine ⟨h2, hnext ▸ hlt', ?_, hmk⟩
      rw [hstarted, List.mem_append, List.mem_singleton]
      rintro (h' | rfl)
      · exact hn' h'
      · exact hch p h
    unborn := fun p hp => I.unborn p (hnext ▸ hp)
    room := by
      have ht : Machine.tables { m with sched := m.sched.start c } = m.tables := by
        rw [tables, tables, hnext]
      rw [ht]
      exact I.room }

theorem Inv.start (I : Inv m) (hlt : c < m.sched.nextId) (hn : c ∉ m.sched.started)
    (hpc : (m.procs c).pc ≠ .new) (hch : ∀ p, (m.procs p).pc.child ≠ some c) :
    Inv { m with sched := m.sched.start c } := by
  refine ⟨I.rest.start hlt hn hpc hch, I.refs.congr (fun a y => ?_) rfl rfl fun _ => id⟩
  have hreaped : (m.sched.start c).reaped = m.sched.reaped := by
    rw [Sched.Machine.start, Sched.makeReady_eq]
  cases a with
  | self p => simp only [Holds, hreaped]
  | slot p i | resources p | rootdir => exact Iff.rfl

/-- The end of `fork`. -/
theorem Inv.startChild {rc : Int} (I : Inv m) (hq : m.sched.current = some q)
    (hpc : (m.procs q).pc = .startChild c rc) :
    Inv ({ m with sched := m.sched.start c }.ret q rc) := by
  obtain ⟨-, hlt, hn, huser⟩ := I.made_facts (by rw [hpc]; rfl) fun i => by rw [hpc]; nofun
  have hne : c ≠ q := I.rest.child_ne hq (by rw [hpc]; rfl)
  have I₁ : Inv (m.ret q rc) :=
    I.calm hq (I.ne_idle (by simp [hpc])) (by rw [hpc]; rfl) (by rw [hpc]; rfl)
    ⟨rfl, rfl, rfl, rfl⟩ rfl trivial (fun _ h => h.elim) fun j y => by
      rw [hpc]
      exact (and_iff_left nofun).symm
  have hc : (m.ret q rc).procs c = m.procs c := setProc_of_ne hne
  refine I₁.start hlt hn (by rw [hc, huser]; nofun) fun p h => ?_
  rcases decEq p q with hp | rfl
  · rw [Machine.ret, setProc_of_ne hp] at h
    exact hp (I.rest.parent p q c h (by rw [hpc]; rfl))
  · rw [Machine.ret, setProc_self] at h
    cases h

end Machine

end K439.Table
