import Mathlib.Algebra.Group.Nat.Defs
import K439.Sched.Semaphore

/-!
# Semaphores of user programs

The system call gives `new Semaphore(a0)` whatever `a0` is. The count is a 32-bit number that wraps,
and `down` waits only when it is 0. From a count that is not negative there are fewer than `2 ^ 32`
units until `2 ^ 31` calls of `up` have been made, so as an unsigned number the count does not wrap
(`Granted`). From a negative count nobody waits at all.
-/

namespace K439.Sched

open Machine

/-- `new Semaphore(a0)` -/
def Machine.sysSemaphore (m : Machine) (s : Nat) (a0 : Int32) : Machine :=
  m.setSem s { count := a0, waiting := [] }

/-- The queue of a semaphore is its own. -/
def Own (s : Nat) (_ : Machine × History) (op : Op) : Prop := op ≠ .yieldOn (.sem s)

/-- The count as a number without sign. -/
def Semaphore.units (x : Semaphore) : Nat := x.count.toUInt32.toNat

/-- What `down` takes has been there or was put there by `up`. -/
structure Granted (n : Nat) (x : Semaphore) (h : History) : Prop where
  balance : h.granted + x.units = n + h.ups
  waiting : x.waiting ≠ [] → x.count = 0

variable {s : Nat} {a0 : Int32} {op : Op} {n : Nat}

theorem units_sub_one {c : Int32} (h : c ≠ 0) :
    (c - 1).toUInt32.toNat + 1 = c.toUInt32.toNat := by
  have hsub : (c - 1).toUInt32 = c.toUInt32 - 1 := rfl
  have hne : c.toUInt32.toNat ≠ 0 :=
    fun he => h (Int32.toBitVec_inj.mp (BitVec.eq_of_toNat_eq he))
  have hlt := c.toUInt32.toNat_lt
  rw [hsub, UInt32.toNat_sub, UInt32.toNat_one]
  omega

theorem units_add_one {c : Int32} (h : c.toUInt32.toNat + 1 < 2 ^ 32) :
    (c + 1).toUInt32.toNat = c.toUInt32.toNat + 1 := by
  have hadd : (c + 1).toUInt32 = c.toUInt32 + 1 := rfl
  rw [hadd, UInt32.toNat_add]
  exact Nat.mod_eq_of_lt h

/-- Without the sign the number is the same. -/
theorem toNat_of_nonneg (h : 0 ≤ a0) :
    (a0.toUInt32.toNat : Int) = a0.toInt ∧ a0.toUInt32.toNat < 2 ^ 31 := by
  have hle := Int32.le_iff_toInt_le.mp h
  have hlt := a0.toInt_lt
  have hint : a0.toInt = a0.toUInt32.toBitVec.toInt := rfl
  have hnat : a0.toUInt32.toNat = a0.toUInt32.toBitVec.toNat := rfl
  rw [Int32.toInt_zero] at hle
  rw [hint] at hle hlt ⊢
  rw [BitVec.toInt_eq_toNat_cond] at hle hlt ⊢
  rw [hnat]
  split at hle <;> omega

namespace Granted

theorem step {a b : Machine × History} (G : Granted n (a.1.sems s) a.2) (hop : Own s a op)
    (h : Observed s a op b) (hn : n < 2 ^ 31) (hups : b.2.ups < 2 ^ 31) :
    Granted n (b.1.sems s) b.2 := by
  obtain ⟨m, l⟩ := a
  obtain ⟨m', l'⟩ := b
  obtain ⟨hstep, rfl⟩ : Step m op m' ∧ l' = l.record s m op := h
  obtain ⟨hbalance, hwait⟩ := G
  dsimp only at hbalance hwait hups ⊢
  cases hstep.semEffect hop with
  | other hd hu h =>
    rw [h, History.record_other hd hu]
    exact ⟨hbalance, hwait⟩
  | @down me hc h =>
    by_cases h0 : (m.sems s).count = 0
    · rw [h, Semaphore.down_block h0, History.record_block h0 (hc h0)]
      exact ⟨hbalance, fun _ => h0⟩
    · rw [h, Semaphore.down_take h0, History.record_take h0]
      refine ⟨?_, fun hw => absurd (hwait hw) h0⟩
      have hunits := units_sub_one h0
      simp only [Semaphore.units] at hbalance ⊢
      omega
  | up h =>
    rcases hw : (m.sems s).waiting with _ | ⟨p, waiting⟩
    · rw [History.record_raise hw] at hups ⊢
      rw [h, Semaphore.up_raise hw]
      refine ⟨?_, fun h => absurd hw h⟩
      simp only [Semaphore.units] at hbalance hups ⊢
      rw [units_add_one (by omega)]
      omega
    · -- the unit goes from the caller to `p`
      rw [h, Semaphore.up_hand hw, History.record_hand hw]
      refine ⟨?_, fun _ => hwait (by simp [hw])⟩
      simp only [Semaphore.units] at hbalance ⊢
      omega

end Granted

theorem Observed.ups_le {a b : Machine × History} (h : Observed s a op b) :
    a.2.ups ≤ b.2.ups := by
  rw [h.2]
  cases op with
  | down t =>
    rw [History.record]
    split
    · exact Nat.le_refl _
    · split <;> exact Nat.le_refl _
  | up t =>
    rw [History.record]
    split
    · exact Nat.le_refl _
    · split <;> exact Nat.le_succ _
  | _ => exact Nat.le_refl _

/-- The calls of `up` and `down` on a semaphore that a system call has made. -/
structure UserRun (s : Nat) (a0 : Int32) (a : Machine × History) : Prop where
  run : ∃ count hz state ops₀ m₀ ops, Run Step (Machine.init count hz state) ops₀ m₀ ∧
    (m₀.sems s).waiting = [] ∧
    Run (Run.Within (Observed s) (Own s)) (m₀.sysSemaphore s a0, .nil) ops a
  ups : a.2.ups < 2 ^ 31

theorem UserRun.granted {a : Machine × History} (U : UserRun s a0 a) (h0 : 0 ≤ a0) :
    (a.2.granted : Int) ≤ a0.toInt + a.2.ups := by
  obtain ⟨⟨count, hz, state, ops₀, m₀, ops, -, -, h⟩, hups⟩ := U
  obtain ⟨hint, hlt⟩ := toNat_of_nonneg h0
  have hsem : (m₀.sysSemaphore s a0).sems s = ⟨a0, []⟩ := Function.update_self ..
  have G : Granted a0.toUInt32.toNat (a.1.sems s) a.2 := by
    refine h.inv_of (I := fun a : Machine × History => a.2.ups < 2 ^ 31 →
      Granted a0.toUInt32.toNat (a.1.sems s) a.2)
      (fun _ _ _ ih hop h hups => (ih (Nat.lt_of_le_of_lt h.ups_le hups)).step hop h hlt hups)
        (fun _ => ⟨?_, ?_⟩) hups
    · rw [hsem]
      exact Nat.zero_add _
    · rw [hsem]
      exact fun h => absurd rfl h
  have := G.balance
  omega

/-- A process that runs calls `down`, and the count is not 0. -/
theorem UserRun.take (s : Nat) (a0 : Int32) (h0 : a0 ≠ 0) :
    ∃ a, UserRun s a0 a ∧ a.2.granted = 1 ∧ a.2.ups = 0 := by
  have hrun : ∃ m₀, Run Step (Machine.init (fun _ => 0) 1000 fun _ => .READY)
      [.construct, .boot, .start 0, .yield] m₀ ∧
      (m₀.sems s).waiting = [] ∧ m₀.current = some 0 := by
    refine ⟨_, .cons ⟨trivial, rfl⟩ <| .cons ⟨rfl, rfl⟩ <| .cons
      ⟨⟨Nat.succ_pos _, ?_⟩, rfl⟩ <| .cons ⟨trivial, rfl⟩ .nil, rfl, rfl⟩
    simp [newIdleProcess, start, makeReady_eq, Machine.init]
  obtain ⟨m₀, hinit, hw, -⟩ := hrun
  have hsem : (m₀.sysSemaphore s a0).sems s = ⟨a0, []⟩ := Function.update_self ..
  have hcount : ((m₀.sysSemaphore s a0).sems s).count ≠ 0 := by rwa [hsem]
  have hdown : Step (m₀.sysSemaphore s a0) (.down s) _ := ⟨trivial, if_neg hcount⟩
  have hobserved : Run.Within (Observed s) (Own s) (m₀.sysSemaphore s a0, .nil) (.down s)
      (_, History.nil.record s (m₀.sysSemaphore s a0) (.down s)) :=
        ⟨⟨hdown, rfl⟩, fun h => by cases h⟩
  refine ⟨_, ⟨⟨_, _, _, _, _, _, hinit, hw, .single hobserved⟩, ?_⟩, ?_, ?_⟩
  all_goals rw [History.record_take hcount]
  exacts [Nat.two_pow_pos 31, rfl, rfl]

/-- **A semaphore of a user program grants no more than its units** in every run exactly if its
first count is not negative. A `down` that had to wait is granted by the `up` that ends its wait. -/
theorem user_semaphore_iff (s : Nat) (a0 : Int32) :
    (∀ a, UserRun s a0 a → (a.2.granted : Int) ≤ max a0.toInt 0 + a.2.ups) ↔ 0 ≤ a0 := by
  constructor
  · intro h
    refine Int32.not_lt.mp fun hneg => ?_
    obtain ⟨a, U, hg, hu⟩ := UserRun.take s a0 (by rintro rfl; exact absurd hneg (by decide))
    have hle := h a U
    have hint := Int32.lt_iff_toInt_lt.mp hneg
    rw [Int32.toInt_zero] at hint
    rw [hg, hu] at hle
    omega
  · intro h0 a U
    have := U.granted h0
    omega

/-- The semaphore of -1 grants a unit that nobody gave. -/
theorem user_semaphore_negative :
    ∃ a, UserRun 0 (-1) a ∧ ¬(a.2.granted : Int) ≤ max (-1 : Int32).toInt 0 + a.2.ups := by
  obtain ⟨a, U, hg, hu⟩ := UserRun.take 0 (-1) (by decide)
  refine ⟨a, U, ?_⟩
  rw [hg, hu]
  decide

end K439.Sched
