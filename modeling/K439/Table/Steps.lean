import K439.Table.Invariant
import Mathlib.Data.Finset.Prod

/-!
# Steps on the tables

`Inv` is `Rest` with `Refs`. Every statement of the source drops a reference, stores one, empties a
slot whose reference is dropped, or leaves the references alone; each kind of statement keeps `Inv`.
-/

namespace K439.Table

open Sched (Pid SameLives)

namespace Machine

structure Inv (m : Machine) : Prop where
  rest : m.Rest
  refs : m.Refs

section

variable {m m' : Machine} {q p : Pid} {x : Proc} {r y : Resource} {a b : Holder} {i : Nat}

theorem holds_slot_self : (m.setProc q x).Holds (.slot q i) y ↔ x.array i = some y ∧
    x.pc.clears ≠ some i := by
  rw [Holds, setProc_self]

/-- What does not depend on the slots of `q`. -/
theorem holds_other (hnew : x.pc = .new ↔ (m.procs q).pc = .new)
    (hf : x.frames = (m.procs q).frames)
    (hb : a = .rootdir → q = 0 → x.pc.boots = (m.procs q).pc.boots)
    (ha : ∀ i, a ≠ .slot q i) : (m.setProc q x).Holds a y ↔ m.Holds a y := by
  have hpc (p : Pid) : ((m.setProc q x).procs p).pc = .new ↔ (m.procs p).pc = .new := by
    rcases decEq p q with hne | rfl
    · rw [setProc_of_ne hne]
    · rw [setProc_self, hnew]
  have hframes (p : Pid) : ((m.setProc q x).procs p).frames = (m.procs p).frames := by
    rcases decEq p q with hne | rfl
    · rw [setProc_of_ne hne]
    · rw [setProc_self, hf]
  cases a with
  | self p => simp only [Holds, hpc, hframes, setProc_sched, ne_eq]
  | slot p i =>
    have hne : p ≠ q := by
      rintro rfl
      exact ha i rfl
    rw [Holds, setProc_of_ne hne, Holds]
  | resources p => simp only [Holds, hpc, setProc_deleted, ne_eq]
  | rootdir =>
    have hboots : ((m.setProc q x).procs 0).pc.boots = (m.procs 0).pc.boots := by
      rcases decEq 0 q with hne | rfl
      · rw [setProc_of_ne hne]
      · rw [setProc_self, hb rfl rfl]
    simp only [Holds, hboots]

/-- Counts and deletions, apart from those of tables, have no say in who holds what. -/
theorem holds_drop (h : ∀ p, r ≠ .table p) : (m.drop r).Holds a y ↔ m.Holds a y := by
  cases a with
  | resources p =>
    have hp : (m.drop r).deleted (.table p) = m.deleted (.table p) := drops_of_ne (Ne.symm (h p))
    rw [Holds, hp]
    rfl
  | self p | slot p i | rootdir => rfl

/-- What changes only in the calls and the reaper queue. -/
theorem holds_congr (hpc : ∀ p, (m'.procs p).pc = (m.procs p).pc)
    (ha : ∀ p, (m'.procs p).array = (m.procs p).array) (hd : m'.deleted = m.deleted)
    (hs : ∀ p, a = .self p →
      ((p ∈ m'.sched.reaped → ∃ q, .unref p ∈ (m'.procs q).frames) ↔
        (p ∈ m.sched.reaped → ∃ q, .unref p ∈ (m.procs q).frames))) : m'.Holds a y ↔
        m.Holds a y := by
  cases a with
  | self p => rw [Holds, Holds, hpc, hs p rfl]
  | slot p i => rw [Holds, Holds, hpc, ha]
  | resources p => rw [Holds, Holds, hpc, hd]
  | rootdir => rw [Holds, Holds, hpc]

/-- Calls other than `Resource::unref(kill)` have no say in who holds what. -/
theorem holds_setFrames {frames : List Frame}
    (h : ∀ p, .unref p ∈ frames ↔ .unref p ∈ (m.procs q).frames) :
    (m.setProc q { m.procs q with frames := frames }).Holds a y ↔ m.Holds a y := by
  have hx (p : Pid) : ((m.setProc q { m.procs q with frames := frames }).procs p).pc =
      (m.procs p).pc ∧
      ((m.setProc q { m.procs q with frames := frames }).procs p).array = (m.procs p).array ∧
      ∀ k, .unref k ∈ ((m.setProc q { m.procs q with frames := frames }).procs p).frames ↔
        .unref k ∈ (m.procs p).frames := by
    rcases decEq p q with hne | rfl
    · rw [setProc_of_ne hne]
      exact ⟨rfl, rfl, fun _ => Iff.rfl⟩
    · rw [setProc_self]
      exact ⟨rfl, rfl, h⟩
  refine holds_congr (fun p => (hx p).1) (fun p => (hx p).2.1) rfl fun p _ => ?_
  simp only [fun a => (hx a).2.2, setProc_sched]

/-- Early, nobody holds the root directory. -/
theorem Rest.not_holds_rootdir (I : Rest m) (h : (m.procs 0).pc.early = true) :
    ¬m.Holds a rootdir := by
  intro ha
  cases a with
  | self p => cases ha.1
  | slot p i => exact (I.early h).2 p i ha.1
  | resources p => cases ha.1
  | rootdir =>
    have hb := ha.2
    revert h hb
    generalize (m.procs 0).pc = pc
    cases pc with
    | addWorkingDir root | setWorkingDir root => cases root <;> simp [Pc.early, Pc.boots]
    | _ => simp [Pc.early]

/-- A file is in one slot only. -/
theorem Rest.holds_file {k : Nat} (I : Rest m) (h : m.Holds (.slot q i) (.file k)) :
    m.Holds b (.file k) ↔ b = .slot q i := by
  refine ⟨fun hb => ?_, fun hb => hb ▸ h⟩
  cases b with
  | self p => cases hb.1
  | slot p j =>
    obtain ⟨rfl, rfl⟩ := I.file p j q i k hb.1 h.1
    rfl
  | resources p => cases hb.1
  | rootdir => cases hb.1

/-- What is held is not new. -/
theorem Rest.holds_old (I : Rest m) (h : m.Holds a r) : ¬m.New r := by
  cases a with
  | self p =>
    obtain ⟨rfl, hp, -⟩ := h
    exact hp
  | slot p i => exact (I.old p i r h.1).1
  | resources p =>
    obtain ⟨rfl, hp, -⟩ := h
    exact hp
  | rootdir =>
    obtain ⟨rfl, -⟩ := h
    exact Nat.not_le_of_lt I.object

namespace Inv

/-- A deleted process was reaped. -/
theorem reaped_of_deleted (I : Inv m) (h : m.deleted (.process p) ≠ 0) :
    p ∈ m.sched.reaped ∧ (m.procs p).pc = .exited := by
  have hnew : (m.procs p).pc ≠ .new := fun hp => h (I.rest.fresh (.process p) hp)
  have hreaped : p ∈ m.sched.reaped := by
    by_contra hn
    exact (I.refs.dead _ h).2 (.self p) ⟨rfl, hnew, fun hp => absurd hp hn⟩
  exact ⟨hreaped, I.rest.queue p (List.mem_append_right _ hreaped)⟩

/-- The slots of a deleted table are null. -/
theorem array_of_deleted (I : Inv m) (h : m.deleted (.table p) ≠ 0) :
    (m.procs p).array i = none := by
  have hpc := (I.reaped_of_deleted (I.refs.table p h)).2
  exact (I.rest.ok p).emptied i (hpc ▸ trivial)

/-- The counts do not wrap around: the slots are in the heap. -/
theorem count_lt (I : Inv m) : (m.count r).toNat + 1 < 0x100000000 := by
  let t : Finset Holder :=
    (((List.range m.sched.nextId).filter fun p => m.deleted (.table p) = 0).toFinset ×ˢ
      Finset.range n).image
      (fun a => .slot a.1 a.2) ∪
    {.self r.pid, .resources r.pid, .rootdir}
  have hmem : ∀ a, m.Holds a r → a ∈ t := by
    intro a ha
    cases a with
    | self p =>
      obtain ⟨rfl, -⟩ := ha
      simp [t, Resource.pid]
    | slot p i =>
      have hp : p < m.sched.nextId := by
        by_contra hp
        have hnull := (I.rest.unborn p (Nat.le_of_not_lt hp)).2 i
        rw [ha.1] at hnull
        cases hnull
      have hi : i < n := by
        by_contra hi
        have hnull := (I.rest.ok p).beyond i (Nat.le_of_not_lt hi)
        rw [ha.1] at hnull
        cases hnull
      have hd : m.deleted (.table p) = 0 := by
        by_contra hd
        have hnull := I.array_of_deleted hd (i := i)
        rw [ha.1] at hnull
        cases hnull
      simp [t, hp, hi, hd]
    | resources p =>
      obtain ⟨rfl, -⟩ := ha
      simp [t, Resource.pid]
    | rootdir => simp [t]
  have hcard : t.card ≤ m.tables * n + 3 := by
    refine (Finset.card_union_le _ _).trans (Nat.add_le_add ?_ Finset.card_le_three)
    refine Finset.card_image_le.trans ?_
    rw [Finset.card_product, Finset.card_range]
    exact Nat.mul_le_mul_right n (List.toFinset_card_le _)
  have hle := I.refs.counted.le_card hmem
  have hroom := I.rest.room
  simp only [n, heapSize] at hroom hcard
  omega

/-- `Resource::unref` but for the destructor, on entries that have changed to those of `m'`. -/
theorem dropped (I : Inv m) (ha : m.Holds a r) (I' : Rest m') (hc : m'.count = m.count)
    (hd : m'.deleted = m.deleted)
    (hh : ∀ b y, m'.Holds b y ↔ m.Holds b y ∧ ¬(b = a ∧ y = r))
    (hn : ∀ p, (m'.procs p).pc ≠ .new → (m.procs p).pc ≠ .new)
    (he : (m'.procs 0).pc.early = true → (m.procs 0).pc.early = true) (ht : ∀ p, r ≠ .table p)
    (ho : ¬m'.New r) : Inv (m'.drop r) where
  rest := by
    refine I'.setCounts (fun y => le_drops) (fun y hy => ?_) (fun h => ?_)
    · have hne : y ≠ r := by
        rintro rfl
        exact ho hy
      rw [drops_of_ne hne]
      exact I'.fresh y hy
    · have hne : rootdir ≠ r := by
        rintro rfl
        exact I.rest.not_holds_rootdir (he h) ha
      rw [drops_of_ne hne]
      exact (I'.early h).1
  refs := by
    refine I.refs.drop ha (fun b y => ?_) ?_ ?_ hn fun p h => absurd h (ht p)
    · rw [holds_drop ht, hh]
    · rw [drop_count, drop_count, hc]
    · rw [drop_deleted, drop_deleted, drops, drops, hc, hd]

/-- `~Process` and `~Table` of a deleted process, up to the loop. -/
theorem unrefTable (I : Inv m) (h : m.deleted (.process p) ≠ 0) (hp : m.deleted (.table p) = 0) :
    Inv (m.unrefOther q (.table p)) := by
  obtain ⟨-, hexited⟩ := I.reaped_of_deleted h
  have hnew : (m.procs p).pc ≠ .new := by
    rw [hexited]
    simp
  have ha : m.Holds (.resources p) (.table p) := ⟨rfl, hnew, hp⟩
  have honly : ∀ b, m.Holds b (.table p) ↔ b = .resources p := by
    intro b
    refine ⟨fun hb => ?_, fun hb => hb ▸ ha⟩
    cases b with
    | self p' => cases hb.1
    | slot p' i => exact absurd rfl (I.rest.old p' i _ hb.1).2
    | resources p' =>
      cases hb.1
      rfl
    | rootdir => cases hb.1
  have h1 : m.count (.table p) = 1 := eq_one_iff.mpr (I.refs.counted.eq_one honly)
  have heq : m.unrefOther q (.table p) = (m.drop (.table p)).call q (.destroy p 0) := by
    rw [unrefOther, if_pos h1, drop, drops, if_pos h1]
    rfl
  have hrest : Rest (m.drop (.table p)) := by
    refine I.rest.setCounts (fun y => le_drops) (fun y hy => ?_) (fun h => ?_)
    · have hne : y ≠ .table p := by
        rintro rfl
        exact hnew hy
      rw [drops_of_ne hne]
      exact I.rest.fresh y hy
    · rw [drops_of_ne (by simp [rootdir])]
      exact (I.rest.early h).1
  rw [heq]
  refine ⟨?_, ?_⟩
  · refine hrest.setFrames_le (fun p' => ?_) (fun p' i h => ?_)
    · rw [List.count_cons_of_ne (by simp)]
    · rcases h with h | h
      · rcases List.mem_cons.mp h with h | h
        · cases h
          exact hexited
        · exact I.rest.destroys p' i q (.inl h)
      · rcases List.mem_cons.mp h with h | h
        · cases h
        · exact I.rest.destroys p' i q (.inr h)
  · refine I.refs.drop ha (fun b y => ?_) rfl rfl (fun p' hp' => ?_) fun p' hp' => ?_
    · refine (holds_setFrames fun p' => by simp).trans ?_
      cases b with
      | resources p' =>
        rcases decEq p' p with hne | rfl
        · have hd : (m.drop (.table p)).deleted (.table p') = m.deleted (.table p') :=
            drops_of_ne (by simp [hne])
          simp only [Holds, hd]
          simp [drop, hne]
        · have hd : (m.drop (.table p')).deleted (.table p') ≠ 0 := by
            rw [drop_deleted, drops_self h1]
            exact Nat.succ_ne_zero _
          refine iff_of_false (fun hb => hd hb.2.2) fun hb => hb.2 ⟨rfl, hb.1.1⟩
      | self p' | slot p' i | rootdir => simp [Holds, drop]
    · revert hp'
      rcases decEq p' q with hne | rfl
      · rw [call, setProc_of_ne hne]
        exact id
      · rw [call, setProc_self]
        exact id
    · cases hp'
      exact h

/-- `Resource::unref` of a resource that is held, on entries that have changed to those of `m'`. -/
theorem unref (I : Inv m) (ha : m.Holds a r) (I' : Rest m') (hc : m'.count = m.count)
    (hd : m'.deleted = m.deleted)
    (hh : ∀ b y, m'.Holds b y ↔ m.Holds b y ∧ ¬(b = a ∧ y = r))
    (hn : ∀ p, (m'.procs p).pc ≠ .new → (m.procs p).pc ≠ .new)
    (he : (m'.procs 0).pc.early = true → (m.procs 0).pc.early = true) (ht : ∀ p, r ≠ .table p)
    (ho : ¬m'.New r) : Inv (m'.unref q (some r)) := by
  have I₂ := I.dropped ha I' hc hd hh hn he ht ho
  cases r with
  | process p =>
    rw [Machine.unref]
    split
    next h1 =>
      rw [drop_of_last h1 (by simp)]
      refine I₂.unrefTable ?_ ?_
      · rw [drop_deleted, drops_self h1]
        exact Nat.succ_ne_zero _
      · by_contra hp
        have hp' : m.deleted (.table p) ≠ 0 := by
          rwa [drop_deleted, drops_of_ne (by simp), hd] at hp
        exact I.refs.table p hp' (I.refs.not_deleted ha)
    next h1 =>
      rwa [drop_of_ne h1]
  | table p => exact absurd rfl (ht p)
  | semaphore k | file k | directory k =>
    rw [Machine.unref, unrefOther_eq (by simp)]
    · exact I₂
    · simp

/-- The entry of `q` changes, but not who holds what. -/
theorem keep (I : Inv m) (hrest : Rest (m.setProc q x))
    (hnew : x.pc = .new ↔ (m.procs q).pc = .new) (hf : x.frames = (m.procs q).frames)
    (hb : q = 0 → x.pc.boots = (m.procs q).pc.boots)
    (hs : ∀ j y, x.array j = some y ∧ x.pc.clears ≠ some j ↔
      (m.procs q).array j = some y ∧ (m.procs q).pc.clears ≠ some j) : Inv (m.setProc q x) where
  rest := hrest
  refs := by
    refine I.refs.congr (fun a y => ?_) rfl rfl fun p hp => ?_
    · by_cases ha : ∃ i, a = .slot q i
      · obtain ⟨i, rfl⟩ := ha
        rw [holds_slot_self, hs]
        rfl
      · exact holds_other hnew hf (fun _ => hb) fun i h => ha ⟨i, h⟩
    · rcases decEq p q with hne | rfl
      · rwa [setProc_of_ne hne] at hp
      · rw [setProc_self] at hp
        exact mt hnew.mpr hp

/-- The current process goes on; no slot that counts changes. -/
theorem setProc (I : Inv m) (hq : m.sched.current = some q) (hex : (m.procs q).pc ≠ .exited)
    (hf : x.frames = (m.procs q).frames) (hnew : x.pc ≠ .new) (hc : x.pc.child = none)
    (ha : ∀ j y, x.array j = some y → (m.procs q).array j = some y) (hok : x.Ok q)
    (he : x.pc.early = true → (m.procs q).pc.early = true)
    (hb : q = 0 → x.pc.boots = (m.procs q).pc.boots)
    (hs : ∀ j y, x.array j = some y ∧ x.pc.clears ≠ some j ↔
      (m.procs q).array j = some y ∧ (m.procs q).pc.clears ≠ some j) : Inv (m.setProc q x) :=
  I.keep (I.rest.setProc hq hex hf hnew hc ha hok he)
    (iff_of_false hnew (I.rest.not_new hq)) hf hb hs

/-- `Resource::unref(array[i])`, after which the slot is cleared. -/
theorem unrefSlot (I : Inv m) (hq : m.sched.current = some q) (hex : (m.procs q).pc ≠ .exited)
    {pc : Pc} (hnew : pc ≠ .new) (hc : pc.child = none)
    (hok : Proc.Ok q { m.procs q with pc := pc })
    (he : pc.early = true → (m.procs q).pc.early = true)
    (hb : q = 0 → pc.boots = (m.procs q).pc.boots) (h0 : (m.procs q).pc.clears = none)
    (h1 : pc.clears = some i) : Inv ((m.goto q pc).unref q ((m.procs q).array i)) := by
  have hnq := I.rest.not_new hq
  have hrest : Rest (m.goto q pc) := I.rest.setProc hq hex rfl hnew hc (fun _ _ => id) hok he
  cases hr : (m.procs q).array i with
  | none =>
    refine I.setProc hq hex rfl hnew hc (fun _ _ => id) hok he hb fun j y => ?_
    rw [h0, h1]
    refine and_congr_right fun h => iff_of_true ?_ nofun
    rintro ⟨⟩
    rw [hr] at h
    cases h
  | some r =>
    have ha : m.Holds (.slot q i) r := ⟨hr, h0 ▸ nofun⟩
    have hnewgo (p : Pid) : ((m.goto q pc).procs p).pc = .new ↔ (m.procs p).pc = .new := by
      rcases decEq p q with hne | rfl
      · rw [goto, setProc_of_ne hne]
      · rw [goto, setProc_self]
        exact iff_of_false hnew hnq
    refine I.unref ha hrest rfl rfl (fun b y => ?_) (fun p hp => mt (hnewgo p).mpr hp) (fun h => ?_)
      (fun p h => ?_) ?_
    · by_cases hb' : ∃ j, b = .slot q j
      · obtain ⟨j, rfl⟩ := hb'
        rw [goto, holds_slot_self, h1, Holds, h0]
        simp only [Holder.slot.injEq, true_and, ne_eq, reduceCtorEq, not_false_eq_true, and_true,
          Option.some.injEq]
        refine and_congr_right fun h =>
          ⟨fun hne hj => hne hj.1.symm, fun hne hj => hne ⟨hj.symm, ?_⟩⟩
        subst hj
        rw [hr] at h
        exact (Option.some.inj h).symm
      · rw [goto, holds_other (x := { m.procs q with pc := pc }) (iff_of_false hnew hnq) rfl
          (fun _ => hb)
          fun j h => hb' ⟨j, h⟩]
        exact (and_iff_left fun h => hb' ⟨i, h.1⟩).symm
    · rcases decEq 0 q with hne | rfl
      · rwa [goto, setProc_of_ne hne] at h
      · rw [goto, setProc_self] at h
        exact he h
    · subst h
      exact (I.rest.old q i _ hr).2 rfl
    · rw [Rest.New.congr hnewgo rfl]
      exact (I.rest.old q i r hr).1

/-- `array[i] = Resource::ref(p)` -/
theorem refSlot (I : Inv m) (hrest : Rest (m.setProc q x))
    (hnew : x.pc = .new ↔ (m.procs q).pc = .new) (hf : x.frames = (m.procs q).frames)
    (hb : q = 0 → x.pc.boots = (m.procs q).pc.boots) (hr : m.deleted r = 0)
    (hi : ¬m.Holds (.slot q i) r) (hs : ∀ j y, x.array j = some y ∧ x.pc.clears ≠ some j ↔
      (m.procs q).array j = some y ∧ (m.procs q).pc.clears ≠ some j ∨ j = i ∧ y = r) :
    Inv ((m.ref r).setProc q x) where
  rest := hrest.setCounts (fun _ => Nat.le_refl _) hrest.fresh fun h => (hrest.early h).1
  refs := by
    refine I.refs.take hi (fun a y => ?_) rfl I.count_lt rfl hr fun p hp => .inl ?_
    · by_cases ha : ∃ j, a = .slot q j
      · obtain ⟨j, rfl⟩ := ha
        rw [holds_slot_self, hs, Holder.slot.injEq]
        simp only [Holds, true_and]
      · refine (holds_other (m := m.ref r) hnew hf (fun _ => hb) fun i h => ha ⟨i, h⟩).trans ?_
        exact (or_iff_left fun h => ha ⟨i, h.1⟩).symm
    · rcases decEq p q with hne | rfl
      · rwa [setProc_of_ne hne] at hp
      · rw [setProc_self] at hp
        exact mt hnew.mpr hp

theorem newObject (I : Inv m) : Inv { m with nextObject := m.nextObject + 1 } where
  rest := I.rest.newObject
  refs := I.refs.congr (fun a _ => by cases a <;> exact Iff.rfl) rfl rfl fun _ => id

/-- `open` has returned. -/
theorem returned (I : Inv m) {v : Int} (h0 : v ≠ 0) (h1 : v ≠ 1) :
    Inv { m with opened := m.opened ++ [v] } where
  rest := { I.rest with
    opened := fun r h => by
      rcases List.mem_append.mp h with h | h
      · exact I.rest.opened r h
      · exact List.mem_singleton.mp h ▸ ⟨h0, h1⟩ }
  refs := I.refs.congr (fun a _ => by cases a <;> exact Iff.rfl) rfl rfl fun _ => id

/-- The scheduler goes on. -/
theorem setSched (I : Inv m) {s : Sched.Machine} (hs : Sched.Inv s) (h : SameLives m.sched s) :
    Inv { m with sched := s } where
  rest := I.rest.setSched hs h
  refs := by
    refine I.refs.congr (fun a y => ?_) rfl rfl fun _ => id
    cases a with
    | self p => simp only [Holds, h.reaped]
    | slot p i | resources p | rootdir => exact Iff.rfl

/-- Calls other than `Resource::unref(kill)`. -/
theorem setFrames (I : Inv m) {frames : List Frame}
    (hp : ∀ p, frames.count (.unref p) = (m.procs q).frames.count (.unref p))
    (hd : ∀ p i, .destroy p i ∈ frames ∨ .clearDestroyed p i ∈ frames →
      (m.procs p).pc = .exited) :
    Inv (m.setProc q { m.procs q with frames := frames }) where
  rest := I.rest.setFrames_le (fun p => (hp p).le) hd
  refs := by
    refine I.refs.congr (fun a y => holds_setFrames fun p => ?_) rfl rfl fun p => ?_
    · rw [← List.count_pos_iff, ← List.count_pos_iff, hp]
    · rcases decEq p q with hne | rfl
      · rw [setProc_of_ne hne]
        exact id
      · rw [setProc_self]
        exact id

end Inv

end

end Machine

end K439.Table
