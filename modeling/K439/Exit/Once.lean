import K439.Exit.Basic
import K439.Lib.Run

/-!
# A process exits once unless it is disturbed

`checkKilled` tests a flag that `exit` never clears. A killed process that loses the processor after
it has entered `exit` enters it again when it is dispatched, or panics when it blocks within the
interrupt that killed it. `exits_once` says that nothing else goes wrong: a run exits once exactly
if the process does not lose the processor so.
-/

namespace K439.Exit

/-- What a process has done so far is part of one exit. -/
structure ExitsOnce (p : Proc) : Prop where
  entered : p.entered ≤ 1
  closeAlls : p.closeAlls ≤ 1
  closeWorkingDirs : p.closeWorkingDirs ≤ 1
  signals : p.signals ≤ 1
  nullReads : p.nullReads = 0
  unblocked : p.status ≠ .blocked
  unpanicked : p.status ≠ .panicked
  done : p.status = .terminated →
    p.entered = 1 ∧ p.closeAlls = 1 ∧ p.closeWorkingDirs = 1 ∧ p.signals = 1

/-- The event does not take a killed process that has entered `exit` off the processor. -/
def Undisturbed (p : Proc) (e : Event) : Prop :=
  e = .timer ∨ e = .block → p.isKilled = true → p.entered = 0

/-- How far the innermost call is. -/
def Pc.phase : Pc → Nat
  | .check => 0
  | .lockAll => 1
  | .unref _ | .clear _ | .unlockAll => 2
  | .lockDir => 3
  | .readDir | .unlockNotDir | .unrefDir | .clearDir => 4
  | .unlockDir => 5
  | .onExit => 6
  | .signal => 7
  | .finish => 8

def phase : List Pc → Nat
  | [] => 0
  | pc :: _ => pc.phase

/-- The process is in its first exit, or before it. -/
structure First (p : Proc) : Prop where
  entered : p.entered = if 1 ≤ phase p.stack then 1 else 0
  closeAlls : p.closeAlls = if 2 ≤ phase p.stack then 1 else 0
  closeWorkingDirs : p.closeWorkingDirs = if 4 ≤ phase p.stack then 1 else 0
  signals : p.signals = if 8 ≤ phase p.stack then 1 else 0
  mutex : p.mutex = if phase p.stack ∈ [2, 4, 5] then 0 else 1
  nullReads : p.nullReads = 0
  workingDir : phase p.stack ≤ 4 → p.array 1 ≠ none
  index : ∀ i, .unref i ∈ p.stack.head? ∨ .clear i ∈ p.stack.head? → 2 ≤ i
  killed : .check ∈ p.stack.head? → p.isKilled = true
  interrupted : p.iDepth ≠ 0 → p.isKilled = true
  unblocked : p.status ≠ .blocked
  unpanicked : p.status ≠ .panicked
  done : p.status = .terminated → phase p.stack = 8

variable {p q : Proc} {e : Event} {es : List Event} {pc : Pc} {code : Int}

/-- What an event does. -/
theorem Step.cases (h : Step p e q) : p.status = .running ∧
    match e with
    | .exit code => p.stack = [] ∧ q = p.exit code
    | .fault => p.stack = [] ∧ q = p.pageFault
    | .step => ∃ pc rest, p.stack = pc :: rest ∧ q = p.step pc
    | .timer => q = p.timer
    | .block => (∃ i, p.unrefSlot = some i) ∧ q = p.block := by
  unfold Step Event.next at h
  split at h
  · cases h
  next hr =>
    refine ⟨not_not.mp hr, ?_⟩
    cases e with
    | exit | fault =>
      dsimp only at h ⊢
      split at h
      next h0 => cases h; exact ⟨h0, rfl⟩
      · cases h
    | step =>
      obtain ⟨pc, hpc, rfl⟩ := Option.map_eq_some_iff.mp h
      obtain ⟨rest, hs⟩ := List.head?_eq_some_iff.mp hpc
      exact ⟨pc, rest, hs, rfl⟩
    | timer =>
      dsimp only at h ⊢
      split at h
      · cases h; rfl
      · cases h
    | block =>
      dsimp only at h ⊢
      split at h
      next hslot =>
        cases h
        refine ⟨?_, rfl⟩
        cases hu : p.unrefSlot with
        | none => rw [hu] at hslot; cases hslot
        | some i => exact ⟨i, rfl⟩
      · cases h

theorem First.exitsOnce (F : First p) : ExitsOnce p := by
  obtain ⟨h1, h2, h3, h4, -, h5, -, -, -, -, h6, h7, h8⟩ := F
  refine ⟨by rw [h1]; split <;> decide, by rw [h2]; split <;> decide,
    by rw [h3]; split <;> decide, by rw [h4]; split <;> decide, h5, h6, h7, fun h => ?_⟩
  have := h8 h
  rw [h1, h2, h3, h4, this]
  decide

namespace First

theorem init (n : Nat) (slots : Nat → Option ResourceType) (dir : ResourceType) (d : Nat) :
    First (Proc.init n slots dir d) := by
  constructor <;> simp [Proc.init, phase]

/-- `exit` is entered for the first time. -/
theorem exit (F : First p) (h0 : phase p.stack = 0) (hr : p.status = .running) :
    First (p.exit code) := by
  obtain ⟨h1, h2, h3, h4, h5, h6, h7, -, -, h8, h9, h10, -⟩ := F
  simp only [h0] at h1 h2 h3 h4 h5 h7
  constructor <;> simp_all [Proc.exit, phase, Pc.phase]

theorem pageFault (F : First p) (h0 : p.stack = []) : First p.pageFault := by
  obtain ⟨h1, h2, h3, h4, h5, h6, h7, -, -, h8, h9, h10, h11⟩ := F
  simp only [h0, phase] at h1 h2 h3 h4 h5 h7 h11
  constructor <;> simp_all [Proc.pageFault, Proc.kill, phase, Pc.phase]

/-- Every step of the innermost call. -/
theorem step {rest : List Pc} (F : First p) (hs : p.stack = pc :: rest) (hr : p.status = .running) :
    First (p.step pc) := by
  obtain ⟨h1, h2, h3, h4, h5, h6, h7, h8, h9, h10, h11, h12, -⟩ := id F
  simp only [hs, phase, List.head?_cons, Option.mem_some_iff] at h1 h2 h3 h4 h5 h7 h8 h9
  cases pc with
  | check =>
    simp only [Proc.step, Proc.checkKilled, h9 rfl, if_true]
    exact F.exit (by simp [hs, phase, Pc.phase]) hr
  | lockAll =>
    simp only [Pc.phase] at h1 h2 h3 h4 h5 h7
    simp only [Proc.step]
    split <;> constructor <;> simp_all [Proc.lock, Proc.goto, phase, Pc.phase]
  | clear i =>
    simp only [Pc.phase] at h1 h2 h3 h4 h5 h7
    have hi := h8 i (.inr rfl)
    have h1i : Function.update p.array i none 1 ≠ none := by
      rw [Function.update_of_ne (by omega)]
      exact h7 (by decide)
    simp only [Proc.step, Proc.loop]
    split <;> constructor <;> simp_all [Proc.goto, phase, Pc.phase, Nat.le_succ_of_le]
  | readDir =>
    simp only [Pc.phase] at h1 h2 h3 h4 h5 h7
    obtain ⟨type, ht⟩ := Option.ne_none_iff_exists'.mp (h7 (Nat.le_refl _))
    simp only [Proc.step, ht]
    split <;> constructor <;> simp_all [Proc.goto, phase, Pc.phase]
  | unref i | unlockAll | lockDir | unlockNotDir | unrefDir | clearDir | unlockDir | onExit |
      signal | finish =>
    simp only [Pc.phase] at h1 h2 h3 h4 h5 h7
    constructor <;> simp_all [Proc.step, Proc.lock, Proc.unlock, Proc.goto, phase, Pc.phase]

end First

theorem First.counts (F : First p) {d i : Nat} (hk : p.isKilled = true) :
    First { p with disableCount := d, iDepth := i } := by
  obtain ⟨h1, h2, h3, h4, h5, h6, h7, h8, h9, -, h10, h11, h12⟩ := F
  exact ⟨h1, h2, h3, h4, h5, h6, h7, h8, h9, fun _ => hk, h10, h11, h12⟩

theorem First.phase_eq_zero (F : First p) (h : p.entered = 0) : phase p.stack = 0 := by
  have := F.entered
  split at this <;> omega

/-- A destructor runs within `exit`. -/
theorem First.entered_of_unrefSlot (F : First p) {i : Nat} (h : p.unrefSlot = some i) :
    p.entered = 1 := by
  rw [F.entered]
  unfold Proc.unrefSlot at h
  split at h
  next hs => rw [hs]; rfl
  next hs => rw [hs]; rfl
  · cases h

/-- An event that the condition admits. -/
theorem First.next (F : First p) (hu : Undisturbed p e) (h : Step p e q) : First q := by
  obtain ⟨hr, h⟩ := h.cases
  cases e with
  | exit code =>
    obtain ⟨h0, rfl⟩ := h
    exact F.exit (by rw [h0]; rfl) hr
  | fault =>
    obtain ⟨h0, rfl⟩ := h
    exact F.pageFault h0
  | step =>
    obtain ⟨pc, rest, hs, rfl⟩ := h
    exact F.step hs hr
  | timer =>
    have h : q = p.timer := h
    subst h
    unfold Proc.timer Proc.checkKilled
    dsimp only
    split
    next hk => exact (F.counts hk).exit (F.phase_eq_zero (hu (.inl rfl) hk)) hr
    · exact F
  | block =>
    obtain ⟨⟨i, hi⟩, rfl⟩ := h
    -- a destructor runs after the exit was entered, so the process is not killed
    have hk : p.isKilled ≠ true := fun hk => by
      have := hu (.inr rfl) hk
      rw [F.entered_of_unrefSlot hi] at this
      cases this
    have hd : p.iDepth = 0 := not_not.mp fun h => hk (F.interrupted h)
    rw [Proc.block, if_neg (not_not.mpr hd), if_neg hk]
    exact F

/-- The histories only grow. -/
structure Grows (p q : Proc) : Prop where
  entered : p.entered ≤ q.entered
  closeAlls : p.closeAlls ≤ q.closeAlls
  closeWorkingDirs : p.closeWorkingDirs ≤ q.closeWorkingDirs
  signals : p.signals ≤ q.signals
  nullReads : p.nullReads ≤ q.nullReads

namespace Grows

theorem refl (p : Proc) : Grows p p := by constructor <;> exact Nat.le_refl _

theorem exit : Grows p (p.exit code) := by constructor <;> simp [Proc.exit]

theorem checkKilled : Grows p p.checkKilled := by
  unfold Proc.checkKilled
  split
  exacts [exit, refl p]

/-- One step, whatever the call is. -/
theorem step (pc : Pc) : Grows p (p.step pc) := by
  cases pc with
  | check =>
    simp only [Proc.step]
    split
    · exact checkKilled
    · exact ⟨Nat.le_refl _, Nat.le_refl _, Nat.le_refl _, Nat.le_refl _, Nat.le_refl _⟩
  | lockAll | lockDir =>
    simp only [Proc.step, Proc.lock]
    split
    · split <;> constructor <;> simp
    · constructor <;> simp [Proc.goto]
  | readDir =>
    simp only [Proc.step]
    split <;> constructor <;> simp [Proc.pageFault, Proc.kill, Proc.goto]
  | _ => constructor <;> simp [Proc.step, Proc.goto, Proc.unlock, Proc.loop]

end Grows

theorem Step.grows (h : Step p e q) : Grows p q := by
  obtain ⟨hr, h⟩ := h.cases
  cases e with
  | exit code => obtain ⟨-, rfl⟩ := h; exact .exit
  | fault =>
    obtain ⟨-, rfl⟩ := h
    constructor <;> exact Nat.le_refl _
  | step => obtain ⟨pc, rest, -, rfl⟩ := h; exact .step pc
  | timer =>
    have h : q = p.timer := h
    subst h
    unfold Proc.timer Proc.checkKilled
    dsimp only
    split
    · constructor <;> simp [Proc.exit]
    · exact .refl p
  | block =>
    obtain ⟨-, rfl⟩ := h
    unfold Proc.block Proc.checkKilled
    dsimp only
    split
    · constructor <;> exact Nat.le_refl _
    · split
      · constructor <;> simp [Proc.exit]
      · exact .refl p

/-- A disturbance enters `exit` again, or panics where it blocks within an interrupt. -/
theorem Step.disturbed (h : Step p e q) (hd : ¬Undisturbed p e) :
    2 ≤ q.entered ∨ q.status = .panicked := by
  unfold Undisturbed at hd
  simp only [Classical.not_imp] at hd
  obtain ⟨he, hk, h0⟩ := hd
  obtain ⟨-, h⟩ := h.cases
  have hentered : q.entered = p.entered + 1 ∨ q.status = .panicked := by
    rcases he with rfl | rfl
    · rw [h, Proc.timer, if_pos hk, Proc.checkKilled, if_pos hk]
      exact .inl rfl
    · rw [h.2, Proc.block]
      rcases Nat.decEq p.iDepth 0 with hi | hi
      · rw [if_pos hi]
        exact .inr rfl
      · rw [if_neg (not_not.mpr hi), if_pos hk, Proc.checkKilled, if_pos hk]
        exact .inl rfl
  exact hentered.imp_left fun h => by omega

theorem ExitsOnce.of_step (E : ExitsOnce q) (h : Step p e q) : ExitsOnce p := by
  have G := h.grows
  refine ⟨Nat.le_trans G.entered E.entered, Nat.le_trans G.closeAlls E.closeAlls,
    Nat.le_trans G.closeWorkingDirs E.closeWorkingDirs, Nat.le_trans G.signals E.signals,
    Nat.le_zero.mp (E.nullReads ▸ G.nullReads), ?_, ?_, ?_⟩
  · rw [h.cases.1]
    decide
  · rw [h.cases.1]
    decide
  · rw [h.cases.1]
    nofun

/-- **A process exits once** exactly if no event of the run takes it off the processor after it was
killed and has entered `exit`. -/
theorem exits_once {n : Nat} {slots : Nat → Option ResourceType} {dir : ResourceType} {d : Nat}
    (h : Run Step (Proc.init n slots dir d) es p) :
    ExitsOnce p ↔ Run (Run.Within Step Undisturbed) (Proc.init n slots dir d) es p := by
  constructor
  · intro E
    induction h with
    | nil => exact .nil
    | snoc _ h ih =>
      refine .snoc (ih (E.of_step h)) ⟨h, ?_⟩
      by_contra hd
      rcases h.disturbed hd with h2 | hp
      · have := E.entered
        omega
      · exact E.unpanicked hp
  · intro hw
    exact (hw.inv_of (fun _ _ _ F hu h => F.next hu h) (First.init n slots dir d)).exitsOnce

/-- A bound for the steps that are left. -/
def Pc.left (n : Nat) : Pc → Nat
  | .check => 2 * n + 20
  | .lockAll => 2 * n + 18
  | .unref i => 2 * (n - i) + 12
  | .clear i => 2 * (n - i) + 11
  | .unlockAll => 10
  | .lockDir => 9
  | .readDir => 8
  | .unrefDir => 7
  | .unlockNotDir | .clearDir => 6
  | .unlockDir => 5
  | .onExit => 4
  | .signal => 3
  | .finish => 2

/-- A step of the first exit ends it or comes closer to its end. -/
theorem First.progress {rest : List Pc} (F : First p) (hs : p.stack = pc :: rest)
    (hr : p.status = .running) : (p.step pc).status = .terminated ∨
      (p.step pc).status = .running ∧ ∃ pc' rest', (p.step pc).stack = pc' :: rest' ∧
        pc'.left (p.step pc).n < pc.left p.n := by
  cases pc with
  | finish => exact .inl rfl
  | check =>
    have hk := F.killed (by simp [hs])
    refine .inr ?_
    simp only [Proc.step, Proc.checkKilled, hk, if_true]
    exact ⟨hr, .lockAll, p.stack, rfl, by simp [Pc.left, Proc.exit]⟩
  | lockAll =>
    have hm : p.mutex = 1 := by simp [F.mutex, hs, phase, Pc.phase]
    refine .inr ?_
    simp only [Proc.step, Proc.lock, hm, Nat.one_ne_zero, if_false]
    refine ⟨hr, _, _, rfl, ?_⟩
    simp only [Proc.goto]
    split <;> simp only [Pc.left] <;> omega
  | lockDir =>
    have hm : p.mutex = 1 := by simp [F.mutex, hs, phase, Pc.phase]
    refine .inr ?_
    simp only [Proc.step, Proc.lock, hm, Nat.one_ne_zero, if_false]
    exact ⟨hr, _, _, rfl, by simp [Pc.left]⟩
  | clear i =>
    refine .inr ⟨hr, _, _, rfl, ?_⟩
    simp only [Proc.step, Proc.loop, Proc.goto]
    split <;> simp only [Pc.left] <;> omega
  | readDir =>
    obtain ⟨type, ht⟩ := Option.ne_none_iff_exists'.mp
      (F.workingDir (by simp [hs, phase, Pc.phase]))
    refine .inr ?_
    simp only [Proc.step, ht]
    refine ⟨hr, _, _, rfl, ?_⟩
    split <;> simp [Pc.left]
  | unref i | unlockAll | unlockNotDir | unrefDir | clearDir | unlockDir | onExit | signal =>
    exact .inr ⟨hr, _, _, rfl, by simp [Pc.left, Proc.step, Proc.goto]⟩

/-- Without a disturbance the exit is carried out. -/
theorem First.completes (F : First p) (hr : p.status = .running) (hs : p.stack ≠ []) :
    ∃ k q, Run Step p (List.replicate k .step) q ∧ q.status = .terminated := by
  obtain ⟨pc, rest, hpc⟩ := List.exists_cons_of_ne_nil hs
  clear hs
  induction hk : pc.left p.n using Nat.strongRecOn generalizing p pc rest with
  | _ k ih =>
    have hstep : Step p .step (p.step pc) := by simp [Step, Event.next, hr, hpc]
    rcases F.progress hpc hr with ht | ⟨hr', pc', rest', hs', hlt⟩
    · exact ⟨1, _, .single hstep, ht⟩
    · obtain ⟨j, q, hrun, ht⟩ := ih _ (hk ▸ hlt) (F.step hpc hr) hr' pc' rest' hs' rfl
      exact ⟨j + 1, q, .cons hstep hrun, ht⟩

/-- A table of 100 slots, as every process has it. -/
def user : Proc := Proc.init 100 (fun _ => none) .DIRECTORY 0

/-- A page fault kills the process. It enters `exit` and is through with `closeAll` and
`closeWorkingDir` when a timer interrupt falls. -/
def disturbed : List Event :=
  [.fault] ++ List.replicate 204 .step ++ [.timer] ++ List.replicate 202 .step

/-- It enters `exit` three times, reads the null slot and waits for a mutex it holds. -/
theorem exit_reentered : ∃ p, Run Step user disturbed p ∧ ¬ExitsOnce p ∧ p.entered = 3 ∧
    p.closeWorkingDirs = 2 ∧ p.nullReads = 1 ∧ p.status = .panicked := by
  have hrun : (disturbed.foldlM Event.next user).map
      (fun p => (p.entered, p.closeWorkingDirs, p.nullReads, p.status)) =
        some (3, 2, 1, .panicked) := by decide +kernel
  obtain ⟨p, hp, he⟩ := Option.map_eq_some_iff.mp hrun
  simp only [Prod.mk.injEq] at he
  refine ⟨p, Run.of_foldlM (fun _ _ _ h => h) hp, fun E => ?_, he⟩
  have := E.entered
  omega

/-- A killed process whose exit is not disturbed. -/
theorem exits_once_user : ∃ p, Run Step user (.fault :: List.replicate 207 .step) p ∧
    p.status = .terminated ∧
    (ExitsOnce p ↔
      Run (Run.Within Step Undisturbed) user (.fault :: List.replicate 207 .step) p) := by
  have hrun : ((Event.fault :: List.replicate 207 .step).foldlM Event.next user).map
      (fun p => p.status) = some .terminated := by decide +kernel
  obtain ⟨p, hp, he⟩ := Option.map_eq_some_iff.mp hrun
  have h : Run Step user _ p := Run.of_foldlM (fun _ _ _ h => h) hp
  exact ⟨p, h, he, exits_once h⟩

end K439.Exit
