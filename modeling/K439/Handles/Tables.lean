import K439.Handles.Kept
import K439.Table.Basic
import K439.Lib.Run
import Mathlib.Data.Finset.Union

/-!
# Tables of descriptors

The operations of `kernel/table.cc` on any number of tables, which run under the mutex of the table,
and what makes the objects that the tables hold. References may also be held outside of the tables.
-/

namespace K439.Handles.Tables

open Exit (ResourceType)
open Table (ERR_INVALID_ID ERR_NO_ID ERR_CLOSE_WD)

def ERR_NOT_DIR : Int := -1007

structure State where
  objects : Objects
  /-- the slots of all tables -/
  array : Nat × Nat → Option Id
  n : Nat → Nat
  /-- the tables that were constructed and not destroyed, and the number of the next one -/
  live : List Nat
  next : Nat

def State.init : State :=
  ⟨⟨fun _ => ⟨.OTHER, 0, false, 0, 0, 0⟩, 0, fun _ => none, []⟩, fun _ => none,
    fun _ => 0, [], 0⟩

namespace State

variable (s : State)

/-- `Resource::unref(array[i]); array[i] = nullptr;` -/
def closeSlot (e : Nat × Nat) : State :=
  { s with objects := s.objects.unref (s.array e), array := Function.update s.array e none }

/-- `array[i] = Resource::ref(p);` -/
def refSlot (e : Nat × Nat) (p : Id) : State :=
  { s with objects := s.objects.ref p, array := Function.update s.array e (some p) }

/-- `new Table(n)` -/
def newTable (n : Nat) : State :=
  { s with n := Function.update s.n s.next n, live := s.next :: s.live, next := s.next + 1 }

/-- `~Table` -/
def destroy (t : Nat) : State :=
  let s := (List.range (s.n t)).foldl (fun s i => s.closeSlot (t, i)) s
  { s with live := s.live.erase t }

def addWorkingDir (t : Nat) (p : Id) : Int × State :=
  let s := { s with objects := s.objects.use p }
  if (s.objects.resources p).type ≠ .DIRECTORY then (ERR_NOT_DIR, s) else
  let s := if s.array (t, 1) ≠ none then { s with objects := s.objects.unref (s.array (t, 1)) }
      else s
  (0, s.refSlot (t, 1) p)

/-- `none` if it reads through a null pointer. -/
def closeWorkingDir (t : Nat) : Option (Int × State) :=
  match s.array (t, 1) with
  | none => none
  | some r =>
    let s := { s with objects := s.objects.use r }
    if (s.objects.resources r).type ≠ .DIRECTORY then some (ERR_NOT_DIR, s)
      else some (0, s.closeSlot (t, 1))

/-- The slot that `open` finds. -/
def freeSlot (t : Nat) : Option Nat :=
  (List.range' 2 (s.n t - 2)).find? fun i => s.array (t, i) = none

def «open» (t : Nat) (p : Id) : Int × State :=
  match s.freeSlot t with
  | some i => (i, s.refSlot (t, i) p)
  | none => (ERR_NO_ID, s)

def close (t : Nat) (i : Int) : Int × State :=
  if i < 0 then (ERR_INVALID_ID, s) else
  if s.n t ≤ i then (ERR_INVALID_ID, s) else
  if i = 1 then (ERR_CLOSE_WD, s) else
  (if s.array (t, i.toNat) = none then ERR_INVALID_ID else 0, s.closeSlot (t, i.toNat))

def closeAll (t : Nat) : State :=
  (List.range' 2 (s.n t - 2)).foldl (fun s i => s.closeSlot (t, i)) s

/-- The body of the loop of `forkMe`, from the table `t` to the table `c`. -/
def forkSlot (t c i : Nat) : State :=
  match s.array (t, i) with
  | none => { s with array := Function.update s.array (c, i) none }
  | some r =>
    let (p, objects) := s.objects.forkMe r
    { s with objects := objects, array := Function.update s.array (c, i) p }

def forkMe (t : Nat) : State :=
  let c := s.next
  let s := s.newTable (s.n t)
  (List.range (s.n t)).foldl (fun s i => s.forkSlot t c i) s

/-- The slots of the tables. -/
def slots : Finset (Nat × Nat) :=
  (Finset.range s.next).biUnion fun t => (Finset.range (s.n t)).image fun i => (t, i)

/-- How many slots hold `r`. -/
def held (r : Id) : Nat := (s.slots.filter fun e => s.array e = some r).card

end State

/-- What is done to the tables and to the objects. -/
inductive Op
  | newSemaphore
  /-- a process starts with a reference to itself -/
  | newProcess
  /-- `lookupFile` and `lookupDirectory` of the block `b` -/
  | lookupFile (b : Nat)
  | lookupDirectory (b : Nat)
  /-- a reference outside of the tables is taken, or dropped -/
  | ref (r : Id)
  | unref (r : Id)
  | newTable (n : Nat)
  | destroy (t : Nat)
  | addWorkingDir (t : Nat) (p : Id)
  | closeWorkingDir (t : Nat)
  | open (t : Nat) (p : Id)
  | close (t : Nat) (i : Int)
  | closeAll (t : Nat)
  | forkMe (t : Nat)

variable {s s' : State}

/-- What a table may hold. -/
def State.May (s : State) (r : Id) : Prop :=
  s.objects.Live r ∧ (s.objects.resources r).type ≠ .OTHER

instance (s : State) (r : Id) : Decidable (s.May r) := inferInstanceAs (Decidable (_ ∧ _))

/-- A table has a slot for the working directory. Who drops a reference has one. -/
inductive Step (s : State) : Op → State → Prop
  | newSemaphore :
      Step s .newSemaphore
      { s with objects := (s.objects.make ⟨.SEMAPHORE, 0, false, 0, 0, 0⟩).2 }
  | newProcess :
      Step s .newProcess { s with objects := (s.objects.make ⟨.PROCESS, 1, false, 0, 0, 0⟩).2 }
  | lookupFile : Step s (.lookupFile b)
      { s with objects := ((s.objects.openFile b).2.newFile (s.objects.openFile b).1).2 }
  | lookupDirectory : Step s (.lookupDirectory b)
      { s with objects := ((s.objects.openFile b).2.newDirectory (s.objects.openFile b).1).2 }
  | ref : s.May r → Step s (.ref r) { s with objects := s.objects.ref r }
  | unref : s.May r → s.held r < (s.objects.resources r).count →
      Step s (.unref r) { s with objects := s.objects.unref (some r) }
  | newTable : 2 ≤ n → Step s (.newTable n) (s.newTable n)
  | destroy : t ∈ s.live → Step s (.destroy t) (s.destroy t)
  | addWorkingDir : t ∈ s.live → s.May p → Step s (.addWorkingDir t p) (s.addWorkingDir t p).2
  | closeWorkingDir : t ∈ s.live → s.closeWorkingDir t = some (rc, u) →
      Step s (.closeWorkingDir t) u
  | open : t ∈ s.live → s.May p → Step s (.open t p) (s.open t p).2
  | close : t ∈ s.live → Step s (.close t i) (s.close t i).2
  | closeAll : t ∈ s.live → Step s (.closeAll t) (s.closeAll t)
  | forkMe : t ∈ s.live → Step s (.forkMe t) (s.forkMe t)

/-- The object that `forkMe` of `r` takes a reference to. -/
def forkRef (s : Objects) (r : Id) : Option Id :=
  match (s.resources r).type with
  | .PROCESS => none
  | .FILE => some (s.resources r).openFile
  | _ => some r

theorem forkRef_file {s : Objects} {r : Id} (h : (s.resources r).type = .FILE) :
    forkRef s r = some (s.resources r).openFile := by
  simp only [forkRef, h]

theorem forkRef_shared {s : Objects} {r : Id} (h : (s.resources r).type ≠ .PROCESS)
    (h' : (s.resources r).type ≠ .FILE) : forkRef s r = some r := by
  rw [forkRef]
  split
  next hp => exact absurd hp h
  next hf => exact absurd hf h'
  next => rfl

/-- What `forkMe` does to the counts. -/
theorem forkMe_count {s : Objects} {r x : Id} (hr : s.Live r) (hx : x < s.next)
    (hlt : ∀ p, forkRef s r = some p → (s.resources p).count + 1 < 0x100000000) :
    ((s.forkMe r).2.resources x).count = (s.resources x).count + if forkRef s r = some x then 1
    else 0 := by
  have href : ∀ p, forkRef s r = some p → (((s.use r).ref p).resources x).count =
      (s.resources x).count + if forkRef s r = some x then 1 else 0 := by
    intro p hp
    rw [hp, Objects.ref_resources, Objects.use_resources, Nat.mod_eq_of_lt (hlt p hp)]
    by_cases h : x = p
    · simp [h]
    · simp [h, Ne.symm h]
  by_cases hp : (s.resources r).type = .PROCESS
  · rw [Objects.forkMe_process hp, forkRef]
    simp [hp]
  by_cases hf : (s.resources r).type = .FILE
  · rw [Objects.forkMe_clone hf, Objects.cloneFile_same (Objects.cloneFile_live hr) hx]
    exact href _ (forkRef_file hf)
  · rw [Objects.forkMe_shared hp hf]
    exact href _ (forkRef_shared hp hf)

theorem State.newTable_n {s : State} {n : Nat} :
    (s.newTable n).n s.next = n ∧ ∀ t < s.next, (s.newTable n).n t = s.n t :=
  ⟨Function.update_self .., fun _ ht => Function.update_of_ne (Nat.ne_of_lt ht) ..⟩

/-- Only one slot changes. -/
theorem State.forkSlot_array {s : State} {t c i : Nat} {e : Nat × Nat} (he : e ≠ (c, i)) :
    (s.forkSlot t c i).array e = s.array e := by
  rw [forkSlot]
  split <;> exact Function.update_of_ne he ..

theorem State.forkSlot_self {s : State} {t c i : Nat} {r : Id} (h : s.array (t, i) = some r) :
    (s.forkSlot t c i).array (c, i) = (s.objects.forkMe r).1 := by
  rw [forkSlot, h]
  exact Function.update_self (c, i) ..

theorem State.forkSlot_tables {s : State} {t c i : Nat} :
    (s.forkSlot t c i).next = s.next ∧ (s.forkSlot t c i).n = s.n ∧
    (s.forkSlot t c i).live = s.live := by
  rw [forkSlot]
  split <;> exact ⟨rfl, rfl, rfl⟩

theorem State.closeSlot_array {s : State} {e e' : Nat × Nat} :
    (s.closeSlot e).array e' = if e' = e then none else s.array e' := Function.update_apply ..

theorem State.closeSlot_self {s : State} {e : Nat × Nat} : (s.closeSlot e).array e = none :=
  Function.update_self ..

/-- The working directory is not closed by `closeAll`. -/
theorem State.closeAll_array {s : State} {t : Nat} :
    (s.closeAll t).array (t, 1) = s.array (t, 1) := by
  rw [closeAll]
  refine List.foldlRecOn _ _ (motive := fun s' : State => s'.array (t, 1) = s.array (t, 1)) rfl
    fun s' hs' i hi => ?_
  rw [closeSlot_array, if_neg]
  · exact hs'
  · intro h
    have := (List.mem_range'_1.mp hi).1
    have := (Prod.ext_iff.mp h).2
    omega

theorem State.refSlot_array {s : State} {e e' : Nat × Nat} {p : Id} :
    (s.refSlot e p).array e' = if e' = e then some p else s.array e' := Function.update_apply ..

/-- The old working directory is closed before the reference to the new one is taken. -/
theorem State.addWorkingDir_eq {s : State} {t : Nat} {p : Id}
    (h : (s.objects.resources p).type = .DIRECTORY) :
    s.addWorkingDir t p =
    (0, (({ s with objects := s.objects.use p } : State).closeSlot (t, 1)).refSlot (t, 1) p) := by
  simp only [addWorkingDir, closeSlot, refSlot, Objects.use_resources, h, ne_eq,
    not_true_eq_false, if_false, Function.update_idem]
  split
  · rfl
  next hn =>
    rw [not_not.mp hn]
    rfl

theorem State.forkMe_live {s : State} {t : Nat} : (s.forkMe t).live = s.next :: s.live := by
  rw [forkMe]
  refine List.foldlRecOn _ _ (motive := fun s' : State => s'.live = s.next :: s.live) rfl fun s' hs'
    i _ => ?_
  rw [forkSlot_tables.2.2]
  exact hs'

/-- The objects that `forkMe` takes references to for the slots `l`. -/
def State.forks (s : State) (t : Nat) (l : List Nat) : List Id :=
  l.filterMap fun i => (s.array (t, i)).bind (forkRef s.objects)

/-- The objects that the operation takes references to. -/
def Op.takes (s : State) : Op → List Id
  | .lookupFile b => [(s.objects.openFile b).1]
  | .lookupDirectory b => [(s.objects.openFile b).1]
  | .ref r => [r]
  | .addWorkingDir t p =>
    if (s.objects.resources p).type = .DIRECTORY ∧ s.array (t, 1) ≠ some p then [p] else []
  | .open t p => if s.freeSlot t = none then [] else [p]
  | .forkMe t => s.forks t (List.range (s.n t))
  | _ => []

/-- The directory is not set again where it is the working directory and nothing else refers to
it. -/
def Op.Apart (s : State) : Op → Prop
  | .addWorkingDir t p => s.array (t, 1) = some p → (s.objects.resources p).count ≠ 1
  | _ => True

/-- And no count wraps. -/
def Safe (s : State) (op : Op) : Prop :=
  op.Apart s ∧ ∀ r ∈ op.takes s, (s.objects.resources r).count + (op.takes s).count r <
    0x100000000

/-- The operation takes and drops references of tables only. -/
def Op.InTables : Op → Prop
  | .ref _ => False
  | .unref _ => False
  | _ => True

/-! ## The slots -/

/-- The slots of a state are exact, with `others` references outside of the tables. -/
structure Sound (s : State) (others : Id → Nat) : Prop where
  inv : Inv s.objects s.array others
  type : ∀ e r, s.array e = some r → (s.objects.resources r).type ≠ .OTHER
  slot : ∀ e r, s.array e = some r → e.1 < s.next ∧ e.2 < s.n e.1
  table : ∀ t ∈ s.live, t < s.next ∧ 2 ≤ s.n t

/-- What is done to the tables leaves the references outside of the tables. -/
structure Moves (s : State) (others : Id → Nat) (s' : State) (others' : Id → Nat) : Prop where
  sound : Sound s' others'
  typed : Typed s.objects s'.objects
  others : ∀ r < s.objects.next, (s.objects.resources r).type ≠ .OTHER → others' r = others r

variable {s'' : State} {others others' others'' : Id → Nat} {e : Nat × Nat} {r p : Id}
  {t c i : Nat}

theorem Sound.moves (S : Sound s others) : Moves s others s others :=
  ⟨S, Typed.refl, fun _ _ _ => rfl⟩

theorem Moves.trans (h₁ : Moves s others s' others') (h₂ : Moves s' others' s'' others'') :
    Moves s others s'' others'' where
  sound := h₂.sound
  typed := h₁.typed.trans h₂.typed
  others r hr ht := by
    have ht' : (s'.objects.resources r).type ≠ .OTHER := by rwa [h₁.typed.type r hr]
    exact (h₂.others r (hr.trans_le h₁.typed.next) ht').trans (h₁.others r hr ht)

namespace Sound

variable (S : Sound s others)
include S

theorem live (h : s.array e = some r) : s.objects.Live r := S.inv.live (.place e) r h

/-- The objects change, and some slots. -/
theorem moves_to {o : Objects} {array : Nat × Nat → Option Id} (I : Inv o array others')
    (T : Typed s.objects o)
    (hothers : ∀ r < s.objects.next, (s.objects.resources r).type ≠ .OTHER →
      others' r = others r) (harray : ∀ e r, array e = some r → s.array e = some r ∨
      (o.resources r).type ≠ .OTHER ∧ e.1 < s.next ∧ e.2 < s.n e.1) :
    Moves s others { s with objects := o, array := array } others' := by
  refine ⟨⟨I, fun e r h => ?_, fun e r h => ?_, S.table⟩, T, hothers⟩
  · rcases harray e r h with h | h
    · dsimp only
      rw [T.type r (S.live h).1]
      exact S.type e r h
    · exact h.1
  · rcases harray e r h with h | h
    · exact S.slot e r h
    · exact h.2

theorem leaked (hr : r < s.objects.next) (hrt : (s.objects.resources r).type ≠ .OTHER)
    (hp : s.objects.Live p) :
    (if (s.objects.resources p).count = 1 then s.objects.leaked others p else others) r =
    others r := by
  split
  · rw [Objects.leaked]
    split
    next hd =>
      refine Function.update_of_ne ?_ ..
      rintro rfl
      exact hrt (S.inv.file p _ ⟨hp, .inr hd, rfl⟩)
    next => rfl
  · rfl

/-- A slot is cleared. Only a directory that goes leaves a reference. -/
theorem closeSlot (e : Nat × Nat) : ∃ others', Moves s others (s.closeSlot e) others' ∧
    ((∀ r, s.array e = some r → (s.objects.resources r).type = .DIRECTORY →
      (s.objects.resources r).count ≠ 1) →
      others' = others) := by
  rcases h : s.array e with _ | r
  · have hs : s.closeSlot e = s := by
      rw [State.closeSlot, Function.update_eq_self_iff.mpr h.symm, h]
      rfl
    rw [hs]
    exact ⟨others, S.moves, fun _ => rfl⟩
  · have I := S.inv.unref (a := .place e) h (S.type e r h) (Holds.clear h)
    refine ⟨if (s.objects.resources r).count = 1 then s.objects.leaked others r else others, ?_,
      fun hdir => ?_⟩
    · rw [State.closeSlot, h]
      refine S.moves_to I (Objects.unref_typed ..)
        (fun x hx ht => S.leaked hx ht (S.live h)) fun e' x hx => ?_
      rw [Function.update_apply] at hx
      split at hx
      · cases hx
      · exact .inl hx
    · split
      next h1 => exact if_neg fun hd => hdir r rfl hd h1
      next => rfl

/-- An empty slot gets a reference to `p`. -/
theorem refSlot (he : s.array e = none) (hslot : e.1 < s.next ∧ e.2 < s.n e.1) (hp : s.May p)
    (hlt : (s.objects.resources p).count + 1 < 0x100000000) :
    Moves s others (s.refSlot e p) others := by
  have I := S.inv.ref (a := .place e) hp.1 hlt (Holds.not_place he) (Holds.fill he)
  refine S.moves_to I (Objects.ref_typed ..) (fun _ _ _ => rfl) fun e' x hx => ?_
  rw [Function.update_apply] at hx
  split at hx
  next h =>
    obtain rfl := Option.some.inj hx
    rw [Objects.ref_resources, h]
    exact .inr ⟨hp.2, hslot⟩
  next => exact .inl hx

theorem closeSlots (l : List Nat) :
    ∃ others', Moves s others (l.foldl (fun s i => s.closeSlot (t, i)) s) others' := by
  induction l generalizing s others with
  | nil => exact ⟨others, S.moves⟩
  | cons i l ih =>
    obtain ⟨others', h₁, -⟩ := S.closeSlot (t, i)
    obtain ⟨others'', h₂⟩ := ih h₁.sound
    exact ⟨others'', h₁.trans h₂⟩

/-- Where `forkMe` puts a reference that `loose` holds into a slot of the new table. -/
theorem store {o : Objects} (I : Inv o s.array others') (T : Typed s.objects o)
    (he : s.array e = none) (hslot : e.1 < s.next ∧ e.2 < s.n e.1) (hpos : 0 < others' p)
    (ht : (o.resources p).type ≠ .OTHER)
    (hothers : ∀ r < s.objects.next, (s.objects.resources r).type ≠ .OTHER → r ≠ p →
      others' r = others r)
    (hp : p < s.objects.next → others' p = others p + 1) :
    ∃ others₁,
      Moves s others { s with objects := o, array := Function.update s.array e (some p) }
        others₁ ∧
      others' = Function.update others₁ p (others₁ p + 1) := by
  obtain ⟨others₁, rfl, hsame⟩ := Holds.pred hpos
  have I₁ := I.move (b := .place e) ((Holds.more ..).mpr (.inr ⟨rfl, rfl⟩))
      (Holds.not_place he) fun x y =>
    (Holds.fill he x y).trans (or_congr (Holds.less x y) Iff.rfl)
  refine ⟨others₁, S.moves_to I₁ T (fun r hr hrt => ?_) fun e' x hx => ?_, rfl⟩
  · rcases eq_or_ne r p with rfl | hne
    · have := hp hr
      rw [Function.update_self] at this
      exact Nat.succ_injective this
    · rw [← hothers r hr hrt hne, hsame r hne]
  · rw [Function.update_apply] at hx
    split at hx
    next h =>
      obtain rfl := Option.some.inj hx
      rw [h]
      exact .inr ⟨ht, hslot⟩
    next => exact .inl hx

/-- What `forkMe` puts into a slot of the new table. The clone of a file has one slot, and the count
of the file. -/
theorem forkSlot (hc : s.array (c, i) = none) (hslot : c < s.next ∧ i < s.n c)
    (hlt : ∀ x, (s.array (t, i)).bind (forkRef s.objects) = some x →
      (s.objects.resources x).count + 1 < 0x100000000) :
    ∃ others', Moves s others (s.forkSlot t c i) others' ∧
    (others' = others ∨ ∃ r, s.array (t, i) = some r ∧
      (s.objects.resources r).type = .FILE ∧
      Function.update others s.objects.next (s.objects.resources r).count =
        Function.update others' s.objects.next (others' s.objects.next + 1)) := by
  rcases h : s.array (t, i) with _ | r
  · have hs : s.forkSlot t c i = s := by
      rw [State.forkSlot, h]
      dsimp only
      rw [Function.update_eq_self_iff.mpr hc.symm]
    rw [hs]
    exact ⟨others, S.moves, .inl rfl⟩
  · have hr := S.live h
    have htype := S.type _ r h
    rw [h] at hlt
    rw [State.forkSlot, h]
    dsimp only
    by_cases hp : (s.objects.resources r).type = .PROCESS
    · rw [Objects.forkMe_process hp]
      dsimp only
      rw [Function.update_eq_self_iff.mpr hc.symm]
      exact ⟨others, S.moves_to (S.inv.use hr) (Objects.use_kept ..).toTyped (fun _ _ _ => rfl)
        fun _ _ => .inl, .inl rfl⟩
    by_cases hf : (s.objects.resources r).type = .FILE
    · have hlt' := hlt (s.objects.resources r).openFile (forkRef_file hf)
      obtain ⟨hfst, I⟩ := S.inv.forkMe_file hr hf hlt'
      rw [hfst]
      have ht := Objects.cloneFile_type
        (Objects.cloneFile_live (p := (s.objects.resources r).openFile) hr)
      have hstore := S.store I (Objects.forkMe_typed hr) hc hslot ?_ ?_
        (fun x _ _ hne => Function.update_of_ne hne ..) fun h => absurd h (Nat.lt_irrefl _)
      · exact hstore.imp fun _ h => ⟨h.1, .inr ⟨r, rfl, hf, h.2⟩⟩
      · rw [Function.update_self]
        exact S.inv.place_pos h
      · rw [Objects.ref_next, Objects.use_next] at ht
        rw [Objects.forkMe_clone hf, ht]
        intro h
        cases h
    · have hlt' := hlt r (forkRef_shared hp hf)
      rw [Objects.forkMe_shared hp hf]
      have I := (S.inv.use hr).ref (a := .place (c, i)) hr hlt' (Holds.not_place hc) (Holds.fill hc)
      have T := Objects.forkMe_typed hr
      rw [Objects.forkMe_shared hp hf] at T
      refine ⟨others, S.moves_to I T (fun _ _ _ => rfl) fun e' x hx => ?_, .inl rfl⟩
      rw [Function.update_apply] at hx
      split at hx
      next he =>
        obtain rfl := Option.some.inj hx
        rw [he, T.type _ hr.1]
        exact .inr ⟨htype, hslot⟩
      next => exact .inl hx

theorem mem_forks {l : List Nat} {x : Id} (h : x ∈ s.forks t l) : x < s.objects.next := by
  obtain ⟨i, -, hx⟩ := List.mem_filterMap.mp h
  obtain ⟨r, hr, hx⟩ := Option.bind_eq_some_iff.mp hx
  have hlive := S.live hr
  rw [forkRef] at hx
  split at hx
  · cases hx
  next hf =>
    cases hx
    exact (S.inv.live (.handle r) _ ⟨hlive, .inl hf, rfl⟩).1
  · cases hx
    exact hlive.1

/-- The rest of the loop takes the same references after a turn. -/
theorem forks_congr {l : List Nat} (T : Typed s.objects s'.objects)
    (harray : ∀ i, s'.array (t, i) = s.array (t, i)) : s'.forks t l = s.forks t l := by
  refine List.filterMap_congr fun i _ => ?_
  rw [harray]
  refine Option.bind_congr fun r hr => ?_
  have hlt := (S.live hr).1
  rw [forkRef, forkRef, T.type r hlt, T.openFile r hlt]

/-- What a turn of `forkMe` does to the counts. -/
theorem forkSlot_count {x : Id} (hx : x < s.objects.next)
    (hlt : ∀ x, (s.array (t, i)).bind (forkRef s.objects) = some x →
      (s.objects.resources x).count + 1 < 0x100000000) :
    ((s.forkSlot t c i).objects.resources x).count =
      (s.objects.resources x).count + if (s.array (t, i)).bind (forkRef s.objects) = some x then 1
      else 0 := by
  rw [State.forkSlot]
  rcases h : s.array (t, i) with _ | r
  · rfl
  · rw [h] at hlt
    exact forkMe_count (S.live h) hx hlt

/-- What the loop of `forkMe` keeps is what a turn keeps, where nothing wraps. -/
theorem forkSlots {P : State → (Id → Nat) → Prop} (hP : P s others)
    (hstep : ∀ s others i, P s others → s.array (c, i) = none → c < s.next ∧ i < s.n c →
      (∀ x, (s.array (t, i)).bind (forkRef s.objects) = some x →
        (s.objects.resources x).count + 1 < 0x100000000) →
      ∃ others', Moves s others (s.forkSlot t c i) others' ∧ P (s.forkSlot t c i) others')
    (l : List Nat) (hne : t ≠ c) (hl : l.Nodup) (hc : ∀ i ∈ l, s.array (c, i) = none)
    (hslot : c < s.next ∧ ∀ i ∈ l, i < s.n c)
    (hlt : ∀ x, (s.objects.resources x).count + (s.forks t l).count x < 0x100000000) :
    ∃ others', Moves s others (l.foldl (fun s i => s.forkSlot t c i) s) others' ∧
      P (l.foldl (fun s i => s.forkSlot t c i) s) others' := by
  induction l generalizing s others with
  | nil => exact ⟨others, S.moves, hP⟩
  | cons i l ih =>
    obtain ⟨hi, hl⟩ := List.nodup_cons.mp hl
    have hcount : ∀ x, (s.forks t (i :: l)).count x =
        (s.forks t l).count x + if (s.array (t, i)).bind (forkRef s.objects) = some x then 1
          else 0 := by
      intro x
      rw [State.forks, List.filterMap_cons]
      split
      next h => simp [h, State.forks]
      next y h =>
        rw [h, List.count_cons]
        simp [State.forks]
    have hfit : ∀ x, (s.array (t, i)).bind (forkRef s.objects) = some x →
        (s.objects.resources x).count + 1 < 0x100000000 := by
      intro x hx
      have := hlt x
      rw [hcount, if_pos hx] at this
      omega
    obtain ⟨others', h₁, hP'⟩ :=
      hstep s others i hP (hc i List.mem_cons_self) ⟨hslot.1, hslot.2 i List.mem_cons_self⟩ hfit
    obtain ⟨hnext, hn, -⟩ := State.forkSlot_tables (s := s) (t := t) (c := c) (i := i)
    have hforks : (s.forkSlot t c i).forks t l = s.forks t l :=
      S.forks_congr h₁.typed fun j => State.forkSlot_array fun h => hne (Prod.ext_iff.mp h).1
    have hc' : ∀ j ∈ l, (s.forkSlot t c i).array (c, j) = none := by
      intro j hj
      rw [State.forkSlot_array]
      · exact hc j (List.mem_cons_of_mem _ hj)
      · intro h
        obtain rfl := (Prod.ext_iff.mp h).2
        exact hi hj
    have hlt' : ∀ x, ((s.forkSlot t c i).objects.resources x).count +
        ((s.forkSlot t c i).forks t l).count x < 0x100000000 := by
      intro x
      rw [hforks]
      rcases Nat.lt_or_ge x s.objects.next with hx | hx
      · rw [S.forkSlot_count hx hfit, Nat.add_assoc, Nat.add_comm (ite ..), ← hcount]
        exact hlt x
      · rw [List.count_eq_zero.mpr fun h => Nat.not_lt.mpr hx (S.mem_forks h)]
        exact h₁.sound.inv.count_lt x
    rw [← hnext, ← hn] at hslot
    obtain ⟨others'', h₂, hP''⟩ :=
      ih h₁.sound hP' hl hc' ⟨hslot.1, fun j hj => hslot.2 j (List.mem_cons_of_mem _ hj)⟩ hlt'
    exact ⟨others'', h₁.trans h₂, hP''⟩

theorem newTable {n : Nat} (hn : 2 ≤ n) : Moves s others (s.newTable n) others := by
  refine ⟨⟨S.inv, S.type, fun e r h => ?_, fun t ht => ?_⟩, Typed.refl, fun _ _ _ => rfl⟩
  · obtain ⟨hlt, hi⟩ := S.slot e r h
    refine ⟨Nat.lt_succ_of_lt hlt, ?_⟩
    rwa [State.newTable_n.2 _ hlt]
  · rcases List.mem_cons.mp ht with rfl | ht
    · refine ⟨Nat.lt_succ_self _, ?_⟩
      rwa [State.newTable_n.1]
    · obtain ⟨hlt, h2⟩ := S.table t ht
      refine ⟨Nat.lt_succ_of_lt hlt, ?_⟩
      rwa [State.newTable_n.2 _ hlt]

theorem forkMe {P : State → (Id → Nat) → Prop} (ht : t ∈ s.live)
    (hP : P (s.newTable (s.n t)) others)
    (hstep : ∀ s others c i, P s others → s.array (c, i) = none → c < s.next ∧ i < s.n c →
      (∀ x, (s.array (t, i)).bind (forkRef s.objects) = some x →
        (s.objects.resources x).count + 1 < 0x100000000) →
      ∃ others', Moves s others (s.forkSlot t c i) others' ∧ P (s.forkSlot t c i) others')
    (hlt : ∀ x, (s.objects.resources x).count + (s.forks t (List.range (s.n t))).count x <
      0x100000000) :
    ∃ others', Moves s others (s.forkMe t) others' ∧ P (s.forkMe t) others' := by
  obtain ⟨htn, h2⟩ := S.table t ht
  have h₁ := S.newTable h2
  have hn : (s.newTable (s.n t)).n s.next = s.n t := State.newTable_n.1
  have hfree : ∀ i ∈ List.range (s.n t), (s.newTable (s.n t)).array (s.next, i) = none := by
    intro i _
    refine Option.eq_none_iff_forall_ne_some.mpr fun r hr => ?_
    exact Nat.lt_irrefl _ (S.slot _ r hr).1
  obtain ⟨others', h₂, hP'⟩ :=
    h₁.sound.forkSlots hP (fun s others i => hstep s others _ i) (List.range (s.n t))
    (Nat.ne_of_lt htn) List.nodup_range hfree ⟨Nat.lt_succ_self _,
      fun i hi => hn.symm ▸ List.mem_range.mp hi⟩ hlt
  rw [State.forkMe, State.newTable_n.2 t htn]
  exact ⟨others', h₁.trans h₂, hP'⟩

theorem freeSlot (ht : t ∈ s.live) (h : s.freeSlot t = some i) :
    s.array (t, i) = none ∧ t < s.next ∧ i < s.n t := by
  have hmem := List.mem_range'_1.mp (List.mem_of_find?_eq_some h)
  obtain ⟨hlt, h2⟩ := S.table t ht
  exact ⟨of_decide_eq_true (List.find?_some (p := fun i => s.array (t, i) = none) h),
    hlt, by omega⟩

theorem «open» (ht : t ∈ s.live) (hp : s.May p)
    (hlt : ∀ i, s.freeSlot t = some i → (s.objects.resources p).count + 1 < 0x100000000) :
    ∃ others', Moves s others (s.open t p).2 others' := by
  rw [State.open]
  rcases h : s.freeSlot t with _ | i
  · exact ⟨others, S.moves⟩
  · obtain ⟨hnone, hslot⟩ := S.freeSlot ht h
    exact ⟨others, S.refSlot hnone hslot hp (hlt i h)⟩

theorem close (i : Int) : ∃ others', Moves s others (s.close t i).2 others' := by
  rw [State.close]
  split
  · exact ⟨others, S.moves⟩
  split
  · exact ⟨others, S.moves⟩
  split
  · exact ⟨others, S.moves⟩
  · obtain ⟨others', h, -⟩ := S.closeSlot (t, i.toNat)
    exact ⟨others', h⟩

/-- The objects are used. -/
theorem use (hp : s.objects.Live p) : Moves s others { s with objects := s.objects.use p } others :=
  S.moves_to (S.inv.use hp) (Objects.use_kept ..).toTyped (fun _ _ _ => rfl) fun _ _ => .inl

theorem closeWorkingDir {rc : Int} (h : s.closeWorkingDir t = some (rc, s')) :
    ∃ others', Moves s others s' others' := by
  rw [State.closeWorkingDir] at h
  split at h
  · cases h
  next r hr =>
    have h₁ := S.use (S.live hr)
    dsimp only at h
    split at h
    · cases h
      exact ⟨others, h₁⟩
    · cases h
      obtain ⟨others', h₂, -⟩ := h₁.sound.closeSlot (t, 1)
      exact ⟨others', h₁.trans h₂⟩

/-- The old working directory is not the last reference to `p`. -/
theorem closed (hp : s.May p) (hapart : s.array e = some p → (s.objects.resources p).count ≠ 1)
    (hlt : s.array e ≠ some p → (s.objects.resources p).count + 1 < 0x100000000) :
    (s.closeSlot e).May p ∧ ((s.closeSlot e).objects.resources p).count + 1 < 0x100000000 := by
  have T := Objects.unref_typed s.objects (s.array e)
  have hmay : ∀ o : Objects, Typed s.objects o → (o.resources p).deleted = false →
      o.Live p ∧ (o.resources p).type ≠ .OTHER :=
    fun o T hd => ⟨⟨hp.1.1.trans_le T.next, hd⟩, by rw [T.type p hp.1.1]; exact hp.2⟩
  rw [State.May, State.closeSlot]
  rcases h : s.array e with _ | q
  · exact ⟨hp, hlt (by rw [h]; nofun)⟩
  rw [h] at T
  dsimp only
  rcases eq_or_ne p q with rfl | hne
  · obtain ⟨heq, hcount⟩ := Objects.unref_shared (hapart h)
    have hpos : 0 < (s.objects.resources p).count := S.inv.place_pos h
    have := S.inv.count_lt p
    rw [heq] at T ⊢
    refine ⟨hmay _ T (Objects.release_live hp.1 (.inr (hapart h))).2, ?_⟩
    omega
  · have hsame := Objects.unref_same S.inv.cached hp.1.1 hne hp.2
    refine ⟨hmay _ T ?_, ?_⟩
    · rw [hsame]
      exact hp.1.2
    · rw [hsame]
      exact hlt fun heq => hne (Option.some.inj (heq.symm.trans h))

theorem addWorkingDir (ht : t ∈ s.live) (hp : s.May p)
    (hapart : s.array (t, 1) = some p → (s.objects.resources p).count ≠ 1)
    (hlt : (s.objects.resources p).type = .DIRECTORY → s.array (t, 1) ≠ some p →
      (s.objects.resources p).count + 1 < 0x100000000) : ∃ others',
      Moves s others (s.addWorkingDir t p).2 others' := by
  have h₁ := S.use hp.1
  by_cases hd : (s.objects.resources p).type = .DIRECTORY
  · obtain ⟨others', h₂, -⟩ := h₁.sound.closeSlot (t, 1)
    obtain ⟨hmay, hfit⟩ := h₁.sound.closed (e := (t, 1)) hp hapart (hlt hd)
    rw [State.addWorkingDir_eq hd]
    exact ⟨others',
      (h₁.trans h₂).trans (h₂.sound.refSlot (Function.update_self ..) (S.table t ht)
      hmay hfit)⟩
  · have heq : s.addWorkingDir t p = (ERR_NOT_DIR, { s with objects := s.objects.use p }) := by
      simp only [State.addWorkingDir, Objects.use_resources, ne_eq, hd, not_false_eq_true, if_true]
    rw [heq]
    exact ⟨others, h₁⟩

theorem destroy (t : Nat) : ∃ others', Moves s others (s.destroy t) others' := by
  obtain ⟨others', h₁⟩ := S.closeSlots (t := t) (List.range (s.n t))
  have S' := h₁.sound
  refine ⟨others',
    ⟨S'.inv, S'.type, S'.slot, fun t' ht' => S'.table t' (List.mem_of_mem_erase ht')⟩,
    h₁.typed, h₁.others⟩

theorem mem_slots (h : s.array e = some r) : e ∈ s.slots := by
  obtain ⟨ht, hi⟩ := S.slot e r h
  exact Finset.mem_biUnion.mpr ⟨e.1, Finset.mem_range.mpr ht,
    Finset.mem_image.mpr ⟨e.2, Finset.mem_range.mpr hi, rfl⟩⟩

/-- What is not in a slot is outside of the tables. -/
theorem count_eq (ht : (s.objects.resources r).type ≠ .OTHER) :
    (s.objects.resources r).count = s.held r + others r := by
  obtain ⟨T, hT, hcard⟩ := S.inv.exact r
  let places :=
    (s.slots.filter fun e => s.array e = some r).map ⟨Holder.place, fun _ _ => Holder.place.inj⟩
  let loose :=
    (Finset.range (others r)).map ⟨Holder.loose (E := Nat × Nat), fun _ _ => Holder.loose.inj⟩
  have hdisj : Disjoint places loose := by
    refine Finset.disjoint_left.mpr fun h hp hl => ?_
    obtain ⟨e, -, rfl⟩ := Finset.mem_map.mp hp
    obtain ⟨k, -, hk⟩ := Finset.mem_map.mp hl
    cases hk
  have heq : T = places.disjUnion loose hdisj := by
    ext h
    rw [hT, Finset.mem_disjUnion, Finset.mem_map, Finset.mem_map]
    cases h with
    | handle f =>
      refine iff_of_false (fun hf => ht (S.inv.file f r hf)) ?_
      rintro (⟨e, -, he⟩ | ⟨k, -, hk⟩)
      · cases he
      · cases hk
    | place e =>
      refine ⟨fun he => .inl ⟨e, Finset.mem_filter.mpr ⟨S.mem_slots he, he⟩, rfl⟩, ?_⟩
      rintro (⟨e', he', h⟩ | ⟨k, -, hk⟩)
      · cases h
        exact (Finset.mem_filter.mp he').2
      · cases hk
    | loose k =>
      refine ⟨fun hk => .inr ⟨k, Finset.mem_range.mpr hk, rfl⟩, ?_⟩
      rintro (⟨e, -, he⟩ | ⟨k', hk', h⟩)
      · cases he
      · cases h
        exact Finset.mem_range.mp hk'
  refine hcard.symm.trans ?_
  rw [heq, Finset.card_disjUnion, Finset.card_map, Finset.card_map, Finset.card_range]
  rfl

/-! ## The steps -/

theorem newSemaphore :
    Moves s others { s with objects := (s.objects.make ⟨.SEMAPHORE, 0, false, 0, 0, 0⟩).2 }
    others :=
  S.moves_to (S.inv.make_plain rfl rfl (by simp))
    (Objects.make_kept ..).toTyped (fun _ _ _ => rfl) fun _ _ => .inl

theorem newProcess :
    Moves s others { s with objects := (s.objects.make ⟨.PROCESS, 1, false, 0, 0, 0⟩).2 }
    (Function.update others s.objects.next 1) := by
  have I := S.inv.make_plain (x := ⟨.PROCESS, 0, false, 0, 0, 0⟩) rfl rfl (by simp)
  have heq : (s.objects.make ⟨.PROCESS, 1, false, 0, 0, 0⟩).2 =
      (s.objects.make ⟨.PROCESS, 0, false, 0, 0, 0⟩).2.setCount s.objects.next 1 := by
    simp [Objects.make, Objects.setCount]
  have hself : (s.objects.make ⟨.PROCESS, 0, false, 0, 0, 0⟩).2.resources s.objects.next =
      ⟨.PROCESS, 0, false, 0, 0, 0⟩ :=
    Function.update_self ..
  have I' := I.give (r := s.objects.next) (c := 1)
      ⟨Nat.lt_succ_self _, congrArg _ hself⟩ (congrArg _ hself) (by decide)
  rw [← heq] at I'
  exact S.moves_to I' (Objects.make_kept ..).toTyped
    (fun r hr _ => Function.update_of_ne (Nat.ne_of_lt hr) ..) fun _ _ => .inl

/-- The new handle has the reference that `openFile` has taken. -/
theorem newHandle {b : Nat} {x : Resource}
    (hlt : (s.objects.resources (s.objects.openFile b).1).count + 1 < 0x100000000)
    (hx : (x.type = .FILE ∨ x.type = .DIRECTORY) ∧ x.openFile = (s.objects.openFile b).1)
    (hd : x.deleted = false) (h0 : x.count = 0) :
    Moves s others
    { s with objects := (((s.objects.openFile b).2.use (s.objects.openFile b).1).make x).2 }
    others := by
  obtain ⟨K, htype, -⟩ := S.inv.openFile_kept (b := b)
  have I₁ := S.inv.openFile hlt Holds.not_more Holds.more
  have I₂ := I₁.make_handle hx hd h0 ((Holds.more ..).mpr (.inr ⟨rfl, rfl⟩)) htype
      Holds.less
  exact S.moves_to I₂
    (K.toTyped.trans ((Objects.use_kept ..).trans (Objects.make_kept ..)).toTyped)
    (fun _ _ _ => rfl)
    fun _ _ => .inl

/-- A reference outside of the tables is taken. -/
theorem ref (hr : s.May r) (hlt : (s.objects.resources r).count + 1 < 0x100000000) :
    Sound { s with objects := s.objects.ref r } (Function.update others r (others r + 1)) := by
  have I := S.inv.ref hr.1 hlt Holds.not_more Holds.more
  refine ⟨I, fun e x h => ?_, S.slot, S.table⟩
  dsimp only
  rw [Objects.ref_resources]
  exact S.type e x h

/-- A reference outside of the tables is dropped. -/
theorem unref (hr : s.May r) (hheld : s.held r < (s.objects.resources r).count) :
    ∃ others', Sound { s with objects := s.objects.unref (some r) } others' := by
  have hpos : 0 < others r := by
    have := S.count_eq hr.2
    omega
  obtain ⟨others', rfl, -⟩ := Holds.pred hpos
  have I := S.inv.unref (a := .loose (others' r))
      ((Holds.more ..).mpr (.inr ⟨rfl, rfl⟩)) hr.2 Holds.less
  refine ⟨_, I, fun e x h => ?_, S.slot, S.table⟩
  dsimp only
  rw [(Objects.unref_typed s.objects (some r)).type x (S.live h).1]
  exact S.type e x h

/-- What one step does. -/
theorem step {op : Op} (hs : Safe s op) (h : Step s op s') :
    ∃ others', Sound s' others' ∧ (op.InTables → Moves s others s' others') := by
  have hmoves : (∃ others', Moves s others s' others') →
      ∃ others', Sound s' others' ∧ (op.InTables → Moves s others s' others') :=
    fun ⟨others', h⟩ => ⟨others', h.sound, fun _ => h⟩
  obtain ⟨hapart, hlt⟩ := hs
  replace hlt : ∀ r, (s.objects.resources r).count + (op.takes s).count r < 0x100000000 := by
    intro r
    by_cases hr : r ∈ op.takes s
    · exact hlt r hr
    · rw [List.count_eq_zero.mpr hr]
      exact S.inv.count_lt r
  have hone : ∀ p, op.takes s = [p] → (s.objects.resources p).count + 1 < 0x100000000 := by
    intro p hp
    have := hlt p
    rwa [hp, List.count_singleton_self] at this
  cases h with
  | newSemaphore => exact hmoves ⟨others, S.newSemaphore⟩
  | newProcess => exact hmoves ⟨_, S.newProcess⟩
  | lookupFile => exact hmoves ⟨others, S.newHandle (hone _ rfl) ⟨.inl rfl, rfl⟩ rfl rfl⟩
  | lookupDirectory =>
    exact hmoves ⟨others, S.newHandle (hone _ rfl) ⟨.inr rfl, rfl⟩ rfl rfl⟩
  | ref hr => exact ⟨_, S.ref hr (hone _ rfl), nofun⟩
  | unref hr hheld =>
    obtain ⟨others', S'⟩ := S.unref hr hheld
    exact ⟨others', S', nofun⟩
  | newTable hn => exact hmoves ⟨others, S.newTable hn⟩
  | destroy ht => exact hmoves (S.destroy _)
  | addWorkingDir ht hp =>
    refine hmoves (S.addWorkingDir ht hp hapart fun hd hne => hone _ ?_)
    exact if_pos ⟨hd, hne⟩
  | closeWorkingDir ht h => exact hmoves (S.closeWorkingDir h)
  | «open» ht hp =>
    refine hmoves (S.open ht hp fun i hi => hone _ ?_)
    exact if_neg (by rw [hi]; nofun)
  | close ht => exact hmoves (S.close _)
  | closeAll ht => exact hmoves (S.closeSlots _)
  | forkMe ht =>
    obtain ⟨others', h, -⟩ :=
      S.forkMe (P := Sound) ht (S.newTable (S.table _ ht).2).sound
        (fun s others c i S hc hslot hlt => by
      obtain ⟨others', h, -⟩ := S.forkSlot hc hslot hlt
      exact ⟨others', h, h.sound⟩) hlt
    exact hmoves ⟨others', h⟩

end Sound

/-! ## The runs -/

theorem init_sound : Sound State.init fun _ => 0 :=
  ⟨Inv.init fun _ => rfl, fun _ _ h => (by cases h), fun _ _ h => (by cases h),
    fun _ h => (by cases h)⟩

/-- In every run in which no working directory is replaced by itself while only its slot refers to
it, and in which no count wraps, the tables hold live objects. -/
theorem tables_sound {ls : List Op} (h : Run (Run.Within Step Safe) State.init ls s) :
    Clean s.objects.log ∧ (∀ r, s.objects.log.count (.delete r) ≤ 1) ∧
    (∀ e r, s.array e = some r → s.objects.Live r) ∧
    ∀ ls' s', Run (Run.Within Step fun s op => Safe s op ∧ op.InTables) s ls' s' →
    ∀ r < s.objects.next, (s.objects.resources r).type = .SEMAPHORE ∨
    (s.objects.resources r).type = .DIRECTORY →
      ((s'.objects.resources r).count : Int) - (s.objects.resources r).count =
      (s'.held r : Int) - s.held r := by
  obtain ⟨others, S⟩ := h.inv_of (I := fun s => ∃ others, Sound s others)
    (fun _ _ _ ⟨_, S⟩ hs h => (S.step hs h).imp fun _ h => h.1) ⟨_, init_sound⟩
  refine ⟨S.inv.clean, S.inv.clean.once, fun e r hr => S.live hr, fun ls' s' h' r hr ht => ?_⟩
  obtain ⟨others', M⟩ :=
    h'.inv_of (I := fun s' => ∃ others', Moves s others s' others')
      (fun s₁ op s₂ ⟨_, M⟩ hs h => by
    obtain ⟨others₂, -, M₂⟩ := M.sound.step hs.1 h
    exact ⟨others₂, M.trans (M₂ hs.2)⟩) ⟨others, S.moves⟩
  have hother : (s.objects.resources r).type ≠ .OTHER := by
    rcases ht with ht | ht <;> simp [ht]
  have hcount := S.count_eq hother
  have hcount' := M.sound.count_eq (r := r) (by rwa [M.typed.type r hr])
  rw [M.others r hr hother] at hcount'
  omega

/-- A semaphore that a fork has shared and the parent has closed. -/
def shared : State :=
  let s := State.init
  let s : State := { s with objects := (s.objects.make ⟨.SEMAPHORE, 0, false, 0, 0, 0⟩).2 }
  let s := (s.newTable 4).open 0 0
  (((s.2.forkMe 0).close 0 2).2)

theorem shared_run :
    Run (Run.Within Step Safe) State.init [.newSemaphore, .newTable 4, .open 0 0, .forkMe 0,
      .close 0 2] shared := by
  refine .cons ⟨.newSemaphore, trivial, nofun⟩ ?_
  refine .cons ⟨.newTable (by decide), trivial, nofun⟩ ?_
  refine .cons ⟨.open (by decide) (by decide), trivial, by decide⟩ ?_
  refine .cons ⟨.forkMe (by decide), trivial, by decide⟩ ?_
  exact .single ⟨.close (by decide), trivial, nofun⟩

theorem tables_sound_shared : Clean shared.objects.log ∧ ∀ e r, shared.array e = some r →
    shared.objects.Live r :=
  ⟨(tables_sound shared_run).1, (tables_sound shared_run).2.2.1⟩

/-- The second `cd` to a directory that only the table refers to. -/
theorem working_dir_deleted :
    ¬∀ ls s, Run Step State.init ls s → ∀ e r, s.array e = some r → s.objects.Live r := by
  intro h
  have hr := Run.cons (Step.lookupDirectory (s := State.init) (b := 2))
      (.cons (Step.newTable (n := 100) (by decide))
    (.cons (Step.addWorkingDir (t := 0) (p := 1) (by decide) (by decide))
      (.single (Step.addWorkingDir (t := 0) (p := 1) (by decide) (by decide)))))
  exact absurd (h _ _ hr (0, 1) 1 (by decide)) (by decide)

end K439.Handles.Tables
