import K439.Handles.Tables

/-!
# Descriptors from user programs

`Table::get` and the system calls that look up a descriptor with it. A slot that was never opened,
was closed, or was left empty by a fork holds a null pointer, which `get` reads through.
-/

namespace K439.Handles.Tables

open Exit (ResourceType)
open Table (ERR_INVALID_ID)

/-- The method of the resource that a system call goes on with. -/
inductive Method
  | down
  | up
  /-- `doneEvent.wait()`, and then `close` of the descriptor -/
  | wait
  | getLength
  | read (buf : Nat) (len : Int)
  | seek (offset : Int)
  deriving DecidableEq

/-- What `get` comes to. -/
inductive Fetch
  | resource (r : Id) (s : State)
  | nullptr (s : State)
  /-- a read at null, whose page fault kills the process -/
  | fault

/-- What a system call comes to. -/
inductive Reply
  | acts (m : Method) (r : Id) (s : State)
  | returns (rc : Int) (s : State)
  | fault

namespace State

variable (s : State) (t : Nat)

def get (fd : Int) (type : ResourceType) : Fetch :=
  if fd < 0 then .nullptr s else
  if s.n t ≤ fd then .nullptr s else
  match s.array (t, fd.toNat) with
  | none => .fault
  | some res =>
    let s := { s with objects := s.objects.use res }
    if (s.objects.resources res).type ≠ type then .nullptr s else .resource res s

/-- The system call `m` of the resource at `fd`. -/
def call (fd : Int) (type : ResourceType) (m : Method) : Reply :=
  match s.get t fd type with
  | .resource r s => .acts m r s
  | .nullptr s => .returns ERR_INVALID_ID s
  | .fault => .fault

def down (a0 : Int) : Reply := s.call t a0 .SEMAPHORE .down
def up (a0 : Int) : Reply := s.call t a0 .SEMAPHORE .up
def join (a0 : Int) : Reply := s.call t a0 .PROCESS .wait
def getlen (a0 : Int) : Reply := s.call t a0 .FILE .getLength
def read (fd : Int) (buf : Nat) (len : Int) : Reply := s.call t fd .FILE (.read buf len)
def seek (a0 a1 : Int) : Reply := s.call t a0 .FILE (.seek a1)

end State

inductive Call
  | down (a0 : Int)
  | up (a0 : Int)
  | join (a0 : Int)
  | getlen (a0 : Int)
  | read (fd : Int) (buf : Nat) (len : Int)
  | seek (a0 a1 : Int)

def Call.fd : Call → Int
  | down a0 | up a0 | join a0 | getlen a0 => a0
  | read fd _ _ => fd
  | seek a0 _ => a0

def Call.type : Call → ResourceType
  | down _ | up _ => .SEMAPHORE
  | join _ => .PROCESS
  | getlen _ | read _ _ _ | seek _ _ => .FILE

def Call.method : Call → Method
  | down _ => .down
  | up _ => .up
  | join _ => .wait
  | getlen _ => .getLength
  | read _ buf len => .read buf len
  | seek _ a1 => .seek a1

/-- The system call of a process with the table `t`. -/
def Call.run (s : State) (t : Nat) : Call → Reply
  | down a0 => s.down t a0
  | up a0 => s.up t a0
  | join a0 => s.join t a0
  | getlen a0 => s.getlen t a0
  | read fd buf len => s.read t fd buf len
  | seek a0 a1 => s.seek t a0 a1

/-- The tables and the resources are as they were. -/
structure Unchanged (s s' : State) : Prop where
  array : s'.array = s.array
  n : s'.n = s.n
  resources : s'.objects.resources = s.objects.resources
  openFiles : s'.objects.openFiles = s.objects.openFiles

/-- The descriptor names a resource of the type. -/
def Valid (s : State) (t : Nat) (fd : Int) (type : ResourceType) (r : Id) : Prop :=
  0 ≤ fd ∧ fd < s.n t ∧ s.array (t, fd.toNat) = some r ∧ (s.objects.resources r).type = type

/-- A descriptor that does not is rejected, and the call acts on the resource of one that does. -/
def Handled (s : State) (t : Nat) (c : Call) : Prop :=
  (∃ r s', Valid s t c.fd c.type r ∧ c.run s t = .acts c.method r s' ∧ Unchanged s s') ∨
  (∀ r, ¬Valid s t c.fd c.type r) ∧ ∃ s', c.run s t = .returns ERR_INVALID_ID s' ∧
    Unchanged s s'

/-- The slot of the descriptor is empty. -/
def Empty (s : State) (t : Nat) (fd : Int) : Prop :=
  0 ≤ fd ∧ fd < s.n t ∧ s.array (t, fd.toNat) = none

instance (s : State) (t : Nat) (fd : Int) : Decidable (Empty s t fd) :=
  inferInstanceAs (Decidable (_ ∧ _ ∧ _))

variable {s s' : State} {t c i : Nat} {e : Nat × Nat} {fd : Int} {type : ResourceType} {r p : Id}
  {ls : List Op} {op : Op}

/-! ## One call -/

theorem get_valid (h : Valid s t fd type r) :
    ∃ s', s.get t fd type = .resource r s' ∧ Unchanged s s' := by
  obtain ⟨h0, hn, hr, htype⟩ := h
  refine ⟨{ s with objects := s.objects.use r }, ?_, rfl, rfl, rfl, rfl⟩
  rw [State.get, if_neg (Int.not_lt.mpr h0), if_neg (Int.not_le.mpr hn), hr]
  exact if_neg fun h => h htype

theorem get_empty (h : Empty s t fd) : s.get t fd type = .fault := by
  obtain ⟨h0, hn, hr⟩ := h
  rw [State.get, if_neg (Int.not_lt.mpr h0), if_neg (Int.not_le.mpr hn), hr]

theorem get_invalid (hv : ∀ r, ¬Valid s t fd type r) (he : ¬Empty s t fd) :
    ∃ s', s.get t fd type = .nullptr s' ∧ Unchanged s s' := by
  rw [State.get]
  split
  · exact ⟨s, rfl, rfl, rfl, rfl, rfl⟩
  next h0 =>
    split
    · exact ⟨s, rfl, rfl, rfl, rfl, rfl⟩
    next hn =>
      rcases hr : s.array (t, fd.toNat) with _ | r
      · exact absurd ⟨Int.not_lt.mp h0, Int.not_le.mp hn, hr⟩ he
      · refine ⟨{ s with objects := s.objects.use r }, if_pos fun htype => ?_, rfl,
          rfl, rfl, rfl⟩
        exact hv r ⟨Int.not_lt.mp h0, Int.not_le.mp hn, hr, htype⟩

theorem Call.run_eq (c : Call) : c.run s t = s.call t c.fd c.type c.method := by
  cases c <;> rfl

theorem handled_iff (c : Call) : Handled s t c ↔ ¬Empty s t c.fd := by
  rw [Handled, c.run_eq, State.call]
  constructor
  · intro h he
    rw [get_empty he] at h
    rcases h with ⟨r, s', -, h, -⟩ | ⟨-, s', h, -⟩ <;> cases h
  · intro he
    by_cases hv : ∃ r, Valid s t c.fd c.type r
    · obtain ⟨r, hr⟩ := hv
      obtain ⟨s', hget, hs⟩ := get_valid hr
      rw [hget]
      exact .inl ⟨r, s', hr, rfl, hs⟩
    · have hv' := not_exists.mp hv
      obtain ⟨s', hget, hs⟩ := get_invalid hv' he
      rw [hget]
      exact .inr ⟨hv', s', rfl, hs⟩

/-! ## All tables -/

/-- Nothing is stored in the first slot of a table, which has one for the working directory too. -/
structure State.FirstEmpty (s : State) : Prop where
  first : ∀ t, s.array (t, 0) = none
  table : ∀ t ∈ s.live, t < s.next ∧ 2 ≤ s.n t

namespace State.FirstEmpty

variable (F : s.FirstEmpty)
include F

theorem update {x : Option Id} (h : e.2 = 0 → x = none) (t : Nat) :
    Function.update s.array e x (t, 0) = none := by
  rw [Function.update_apply]
  split
  next he => exact h (Prod.ext_iff.mp he).2.symm
  next => exact F.first t

theorem closeSlot : (s.closeSlot e).FirstEmpty := ⟨F.update fun _ => rfl, F.table⟩

theorem refSlot (he : e.2 ≠ 0) : (s.refSlot e p).FirstEmpty :=
  ⟨F.update fun h => absurd h he, F.table⟩

theorem closeSlots (l : List Nat) : (l.foldl (fun s i => s.closeSlot (t, i)) s).FirstEmpty := by
  induction l generalizing s with
  | nil => exact F
  | cons i l ih => exact ih F.closeSlot

theorem forkSlot : (s.forkSlot t c i).FirstEmpty := by
  rw [State.forkSlot]
  rcases h : s.array (t, i) with _ | r
  · exact ⟨F.update fun _ => rfl, F.table⟩
  · refine ⟨F.update fun (hi : i = 0) => ?_, F.table⟩
    rw [hi, F.first t] at h
    cases h

theorem forkSlots (l : List Nat) : (l.foldl (fun s i => s.forkSlot t c i) s).FirstEmpty := by
  induction l generalizing s with
  | nil => exact F
  | cons i l ih => exact ih F.forkSlot

theorem addWorkingDir : (s.addWorkingDir t p).2.FirstEmpty := by
  rw [State.addWorkingDir]
  dsimp only
  split
  · exact ⟨F.first, F.table⟩
  · split
    · exact ⟨F.update (e := (t, 1)) fun h => absurd h (Nat.succ_ne_zero 0), F.table⟩
    · exact ⟨F.update (e := (t, 1)) fun h => absurd h (Nat.succ_ne_zero 0), F.table⟩

theorem closeWorkingDir {rc : Int} (h : s.closeWorkingDir t = some (rc, s')) : s'.FirstEmpty := by
  rw [State.closeWorkingDir] at h
  split at h
  · cases h
  · dsimp only at h
    split at h <;> cases h
    · exact ⟨F.first, F.table⟩
    · exact ⟨F.update fun _ => rfl, F.table⟩

theorem «open» : (s.open t p).2.FirstEmpty := by
  rw [State.open]
  split
  next i hi =>
    have hmem := List.mem_range'_1.mp (List.mem_of_find?_eq_some hi)
    exact F.refSlot (Nat.ne_of_gt (Nat.lt_of_lt_of_le Nat.zero_lt_two hmem.1))
  next => exact F

theorem close (i : Int) : (s.close t i).2.FirstEmpty := by
  rw [State.close]
  split
  · exact F
  split
  · exact F
  split
  · exact F
  · exact F.closeSlot

theorem newTable {n : Nat} (hn : 2 ≤ n) : (s.newTable n).FirstEmpty := by
  refine ⟨F.first, fun t ht => ?_⟩
  rcases List.mem_cons.mp ht with rfl | ht
  · refine ⟨Nat.lt_succ_self _, ?_⟩
    rwa [State.newTable_n.1]
  · obtain ⟨hlt, h2⟩ := F.table t ht
    refine ⟨Nat.lt_succ_of_lt hlt, ?_⟩
    rwa [State.newTable_n.2 _ hlt]

theorem step (h : Step s op s') : s'.FirstEmpty := by
  cases h with
  | newSemaphore | newProcess | lookupFile | lookupDirectory | ref | unref =>
    exact ⟨F.first, F.table⟩
  | newTable hn => exact F.newTable hn
  | @destroy t _ =>
    have F' := F.closeSlots (t := t) (List.range (s.n t))
    exact ⟨F'.first, fun t ht => F'.table t (List.mem_of_mem_erase ht)⟩
  | addWorkingDir => exact F.addWorkingDir
  | closeWorkingDir _ h => exact F.closeWorkingDir h
  | «open» => exact F.open
  | close => exact F.close _
  | closeAll => exact F.closeSlots _
  | forkMe ht => exact (F.newTable (F.table _ ht).2).forkSlots _

end State.FirstEmpty

theorem first_empty (h : Run Step State.init ls s) : s.FirstEmpty :=
  h.inv (fun _ _ _ F h => F.step h) ⟨fun _ => rfl, nofun⟩

/-- A call with a descriptor is handled if and only if its slot is not an empty one, and every table
has one. -/
theorem descriptors_iff (h : Run Step State.init ls s) (ht : t ∈ s.live) :
    (∀ c, Handled s t c ↔ ¬Empty s t c.fd) ∧ Empty s t 0 := by
  have F := first_empty h
  refine ⟨handled_iff, Int.le_refl _, ?_, F.first t⟩
  have := (F.table t ht).2
  omega

theorem descriptors_iff_shared :
    (∀ c, Handled shared 1 c ↔ ¬Empty shared 1 c.fd) ∧ Empty shared 1 0 :=
  descriptors_iff (shared_run.mono fun _ _ _ h => h.1) (by decide)

/-- A semaphore that was closed is used. -/
theorem descriptor_faults :
    ¬∀ ls s, Run Step State.init ls s → ∀ t ∈ s.live, ∀ c, Handled s t c := by
  intro h
  have hh := h _ shared (shared_run.mono fun _ _ _ h => h.1) 0 (by decide) (.down 2)
  exact (handled_iff _).mp hh (by decide)

end K439.Handles.Tables
