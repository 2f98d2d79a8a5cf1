import K439.Lib.RefCount
import K439.Table.Basic

/-!
# Who holds a resource

A process holds itself until the reaper has dropped it, a slot holds what it refers to until
`close`, `closeAll`, `addWorkingDir` or `closeWorkingDir` has dropped it, a process holds its table,
and Init holds the root directory once more. `Refs` says that the counts are exact, that a deleted
resource was deleted once and has no holder, and that a process that is not deleted has one. The
operations on counts keep it.
-/

namespace K439.Table

open Sched (Pid)

/-- The slot whose reference is dropped and which is not null yet. -/
def Pc.clears : Pc → Option Nat
  | .setWorkingDir _ => some 1
  | .clear i _ => some i
  | .clearAll _ i => some i
  | .clearWorkingDir => some 1
  | _ => none

/-- Init has not yet taken its second reference to the root directory. -/
def Pc.boots : Pc → Bool
  | .addWorkingDir true => true
  | .setWorkingDir true => true
  | .refRootDir => true
  | _ => false

/-- The process that a process or a table is named by. -/
def Resource.pid : Resource → Pid
  | .process p | .table p => p
  | _ => 0

inductive Holder
  /-- the count a process starts with -/
  | self (p : Pid)
  | slot (p : Pid) (i : Nat)
  | resources (p : Pid)
  /-- the reference of Init that is never dropped -/
  | rootdir
  deriving DecidableEq

namespace Machine

def Holds (m : Machine) : Holder → Resource → Prop
  | .self p, r =>
    r = .process p ∧ (m.procs p).pc ≠ .new ∧
      (p ∈ m.sched.reaped → ∃ q, .unref p ∈ (m.procs q).frames)
  | .slot p i, r => (m.procs p).array i = some r ∧ (m.procs p).pc.clears ≠ some i
  | .resources p, r => r = .table p ∧ (m.procs p).pc ≠ .new ∧ m.deleted (.table p) = 0
  | .rootdir, r => r = Table.rootdir ∧ (m.procs 0).pc.boots = false

structure Refs (m : Machine) : Prop where
  counted : RefCounted m.Holds fun r => (m.count r).toNat
  dead : ∀ r, m.deleted r ≠ 0 → m.deleted r = 1 ∧ ∀ a, ¬m.Holds a r
  alive : ∀ p, (m.procs p).pc ≠ .new → m.deleted (.process p) = 0 →
    ∃ a, m.Holds a (.process p)
  /-- the destructor of a process deletes its table -/
  table : ∀ p, m.deleted (.table p) ≠ 0 → m.deleted (.process p) ≠ 0

/-- The deletions that come with a dropped reference to `r`. -/
def drops (m : Machine) (r : Resource) : Resource → Nat :=
  if m.count r = 1 then Function.update m.deleted r (m.deleted r + 1) else m.deleted

/-- `Resource::unref` but for the destructor. -/
def drop (m : Machine) (r : Resource) : Machine :=
  { m with count := Function.update m.count r (m.count r - 1), deleted := m.drops r }

section

variable {m m' : Machine} {q : Pid} {x : Proc} {r r' : Resource} {a b : Holder}

@[simp] theorem setProc_self : (m.setProc q x).procs q = x := Function.update_self ..

theorem setProc_of_ne {p : Pid} (h : p ≠ q) : (m.setProc q x).procs p = m.procs p :=
  Function.update_of_ne h ..

@[simp] theorem setProc_sched : (m.setProc q x).sched = m.sched := rfl

@[simp] theorem setProc_count : (m.setProc q x).count = m.count := rfl

@[simp] theorem setProc_deleted : (m.setProc q x).deleted = m.deleted := rfl

@[simp] theorem setProc_nextObject : (m.setProc q x).nextObject = m.nextObject := rfl

@[simp] theorem setProc_opened : (m.setProc q x).opened = m.opened := rfl

theorem drop_count : (m.drop r).count = Function.update m.count r (m.count r - 1) := rfl

theorem drop_deleted : (m.drop r).deleted = m.drops r := rfl

theorem drops_self (h : m.count r = 1) : m.drops r r = m.deleted r + 1 := by
  rw [drops, if_pos h, Function.update_self]

theorem drops_of_ne {y : Resource} (h : y ≠ r) : m.drops r y = m.deleted y := by
  rw [drops]
  split
  · exact Function.update_of_ne h ..
  · rfl

theorem le_drops {y : Resource} : m.deleted y ≤ m.drops r y := by
  rcases decEq y r with hne | rfl
  · rw [drops_of_ne hne]
  · rw [drops]
    split
    · rw [Function.update_self]
      exact Nat.le_succ _
    · exact Nat.le_refl _

theorem drop_of_last (h : m.count r = 1) (ht : ∀ p, r ≠ .table p) :
    (m.getThenSub r).delete q r = m.drop r := by
  rw [drop, drops, if_pos h]
  cases r with
  | table p => exact absurd rfl (ht p)
  | process p | semaphore k | file k | directory k => rfl

theorem drop_of_ne (h : m.count r ≠ 1) : m.getThenSub r = m.drop r := by
  rw [drop, drops, if_neg h]
  rfl

theorem unrefOther_eq (ht : ∀ p, r ≠ .table p) : m.unrefOther q r = m.drop r := by
  rw [unrefOther]
  split
  next h => exact drop_of_last h ht
  next h => exact drop_of_ne h

theorem toNat_sub_one {c : UInt32} (h : 0 < c.toNat) : (c - 1).toNat = c.toNat - 1 := by
  rw [UInt32.toNat_sub_of_le]
  · rfl
  · exact UInt32.le_iff_toNat_le.mpr h

theorem toNat_add_one {c : UInt32} (h : c.toNat + 1 < 0x100000000) :
    (c + 1).toNat = c.toNat + 1 := by
  rw [UInt32.toNat_add]
  exact Nat.mod_eq_of_lt h

theorem eq_one_iff {c : UInt32} : c = 1 ↔ c.toNat = 1 := UInt32.toNat_inj.symm

namespace Refs

theorem not_deleted (R : Refs m) (h : m.Holds a r) : m.deleted r = 0 := by
  by_contra hd
  exact (R.dead r hd).2 a h

theorem deleted_le (R : Refs m) : m.deleted r ≤ 1 := by
  rcases Nat.eq_zero_or_pos (m.deleted r) with h | h
  · omega
  · exact (R.dead r (Nat.ne_of_gt h)).1.le

/-- Changes that leave the holders, the counts and the deletions alone. -/
theorem congr (R : Refs m) (hh : ∀ a y, m'.Holds a y ↔ m.Holds a y) (hc : m'.count = m.count)
    (hd : m'.deleted = m.deleted)
    (hn : ∀ p, (m'.procs p).pc ≠ .new → (m.procs p).pc ≠ .new) :
    Refs m' where
  counted := R.counted.congr hh fun r => by rw [hc]
  dead r h := by
    rw [hd] at h ⊢
    exact ⟨(R.dead r h).1, fun a ha => (R.dead r h).2 a ((hh a r).mp ha)⟩
  alive p hp h := by
    rw [hd] at h
    obtain ⟨a, ha⟩ := R.alive p (hn p hp) h
    exact ⟨a, (hh a _).mpr ha⟩
  table p h := by
    rw [hd] at h ⊢
    exact R.table p h

/-- A new holder takes a reference. -/
theorem take (R : Refs m) (hb : ¬m.Holds b r)
    (hh : ∀ a y, m'.Holds a y ↔ m.Holds a y ∨ a = b ∧ y = r)
    (hc : m'.count = Function.update m.count r (m.count r + 1))
    (hlt : (m.count r).toNat + 1 < 0x100000000) (hd : m'.deleted = m.deleted) (hr : m.deleted r = 0)
    (hn : ∀ p, (m'.procs p).pc ≠ .new → (m.procs p).pc ≠ .new ∨ .process p = r) :
    Refs m' where
  counted := by
    refine R.counted.take hb hh fun y => ?_
    rw [hc]
    rcases decEq y r with hne | rfl
    · rw [Function.update_of_ne hne, if_neg hne]
    · rw [Function.update_self, if_pos rfl, toNat_add_one hlt]
  dead y h := by
    rw [hd] at h ⊢
    refine ⟨(R.dead y h).1, fun a ha => ?_⟩
    rcases (hh a y).mp ha with ha | ⟨-, rfl⟩
    · exact (R.dead y h).2 a ha
    · exact h hr
  alive p hp h := by
    rw [hd] at h
    rcases hn p hp with hp | rfl
    · obtain ⟨a, ha⟩ := R.alive p hp h
      exact ⟨a, (hh a _).mpr (.inl ha)⟩
    · exact ⟨b, (hh b _).mpr (.inr ⟨rfl, rfl⟩)⟩
  table p h := by
    rw [hd] at h ⊢
    exact R.table p h

/-- A holder drops its reference, and the last one deletes the resource. -/
theorem drop (R : Refs m) (ha : m.Holds a r)
    (hh : ∀ b y, m'.Holds b y ↔ m.Holds b y ∧ ¬(b = a ∧ y = r))
    (hc : m'.count = (m.drop r).count) (hd : m'.deleted = (m.drop r).deleted)
    (hn : ∀ p, (m'.procs p).pc ≠ .new → (m.procs p).pc ≠ .new)
    (hr : ∀ p, r = .table p → m.deleted (.process p) ≠ 0) : Refs m' := by
  have hcounted : RefCounted m'.Holds fun r => (m'.count r).toNat := by
    refine R.counted.drop ha hh fun y => ?_
    rw [hc]
    rcases decEq y r with hne | rfl
    · rw [drop_count, Function.update_of_ne hne, if_neg hne]
    · rw [drop_count, Function.update_self, if_pos rfl, toNat_sub_one (R.counted.pos ha)]
  have hother {y : Resource} (hy : y ≠ r) : m'.deleted y = m.deleted y := by
    rw [hd]
    exact drops_of_ne hy
  have hself (h : m'.deleted r ≠ 0) : m'.deleted r = 1 ∧ m.count r = 1 := by
    rw [hd, drop_deleted] at h ⊢
    rw [drops] at h ⊢
    split at h
    next h1 =>
      rw [if_pos h1, Function.update_self, R.not_deleted ha]
      exact ⟨rfl, h1⟩
    next => exact absurd (R.not_deleted ha) h
  refine ⟨hcounted, fun y h => ?_, fun p hp h => ?_, fun p h => ?_⟩
  · rcases decEq y r with hne | rfl
    · rw [hother hne] at h ⊢
      exact ⟨(R.dead y h).1, fun b hb => (R.dead y h).2 b ((hh b y).mp hb).1⟩
    · obtain ⟨h1, hlast⟩ := hself h
      refine ⟨h1, fun b hb => ?_⟩
      obtain ⟨hb, hne⟩ := (hh b y).mp hb
      exact hne ⟨R.counted.unique (eq_one_iff.mp hlast) hb ha, rfl⟩
  · rcases decEq (.process p) r with hne | rfl
    · rw [hother hne] at h
      obtain ⟨b, hb⟩ := R.alive p (hn p hp) h
      exact ⟨b, (hh b _).mpr ⟨hb, fun h => hne h.2⟩⟩
    · apply hcounted.exists_of_pos
      have hne : m.count (.process p) ≠ 1 := by
        intro h1
        rw [hd, drop_deleted, drops_self h1] at h
        exact absurd h (Nat.succ_ne_zero _)
      have hpos := R.counted.pos ha
      rw [hc, drop_count, Function.update_self, toNat_sub_one hpos]
      rw [Ne, eq_one_iff] at hne
      omega
  · rcases decEq (.table p) r with hne | rfl
    · rw [hother hne] at h
      have hp := R.table p h
      rcases decEq (.process p) r with hne | rfl
      · rwa [hother hne]
      · exact absurd (R.not_deleted ha) hp
    · rw [hother (by simp)]
      exact hr p rfl

end Refs

end

end Machine

end K439.Table
