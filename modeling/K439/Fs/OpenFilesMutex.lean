import K439.Fs.Mount
import K439.Sched.Program
import Mathlib.Data.List.Infix

/-!
# The mutex of the open files

`openFile` and `closeFile` lock `openFilesMutex` around what they do to `openFiles`. `remFromOffset`
and `write` unlock it on some of their ways out without a lock before. Here the operations are
programs over the mutex, which any number of processes run; what an operation reads on its way is a
parameter of its program, so a program stands for one path of the source.
-/

namespace K439.Fs.OpenFilesMutex

open Sched

/-- The steps that are not the mutex. -/
inductive Act
  /-- what is done to `openFiles` between the lock and the unlock -/
  | openFiles
  /-- the end of `openFile` or of `closeFile` -/
  | ret
  /-- anything else: requests to the device, changes of the FAT and of headers -/
  | other
  deriving DecidableEq

abbrev Program := List (Action Unit Act)

abbrev State := Threads Unit Act Unit

abbrev lock : Action Unit Act := .down ()

abbrev unlock : Action Unit Act := .up ()

/-- `openFile` and `closeFile` -/
def guarded : Program := [lock, .act .openFiles, unlock, .act .ret]

/-- `remFromOffset` of a file of `fileSz` bytes -/
def remFromOffset (fileSz entryOffset numBytes : Nat) : Program :=
  if numBytes > fileSz then [.act .other, unlock]
  else if w32 (numBytes + entryOffset) ≥ fileSz then [.act .other, unlock]
  else [.act .other]

/-- The loop of `write`, with the values of `nextBlk` in its rounds. -/
def writeLoop : List Nat → Program
  | [] => [.act .other]
  | nextBlk :: nextBlks =>
    if nextBlk = 0 then [.act .other, unlock] else .act .other :: writeLoop nextBlks

def write (nextBlks : List Nat) : Program := .act .other :: writeLoop nextBlks

/-- An operation, with what it finds. -/
inductive Op
  /-- `lookup`, and what is done without the mutex -/
  | lookup
  | openFile
  | closeFile
  /-- `lookupFile` and `lookupDirectory` -/
  | lookupOpen (found : Bool)
  /-- `found`: the name is there; `isDir`: it is a directory with entries -/
  | remove (found isDir : Bool) (fileSz entryOffset : Nat)
  /-- `fails`: one of the tests before the append fails -/
  | mkdir (fails : Bool) (nextBlks : List Nat)
  | append (nextBlks : List Nat)

namespace Op

def prog : Op → Program
  | lookup => [.act .other]
  | openFile => guarded
  | closeFile => guarded
  | lookupOpen found => .act .other :: if found then guarded else []
  | remove found isDir fileSz entryOffset =>
    .act .other ::
      if found then
        guarded ++ if isDir then []
        else .act .other :: (remFromOffset fileSz entryOffset 16 ++ [.act .other])
      else []
  | mkdir fails nextBlks => .act .other :: if fails then [] else .act .other :: write nextBlks
  | append nextBlks => write nextBlks

/-- The paths on which `remFromOffset` or `write` unlocks. -/
def Strays : Op → Prop
  | remove found isDir fileSz entryOffset =>
    found = true ∧ isDir = false ∧ (16 > fileSz ∨ w32 (16 + entryOffset) ≥ fileSz)
  | mkdir fails nextBlks => fails = false ∧ 0 ∈ nextBlks
  | append nextBlks => 0 ∈ nextBlks
  | _ => False

end Op

/-- The programs without such a path. -/
def Calls (prog : Program) : Prop := ∃ op : Op, ¬op.Strays ∧ prog = op.prog

def act (_ : Act) (d : Unit) : Unit := d

/-- No operation is under way. -/
def init : State where
  sems _ := { count := 1, waiting := [] }
  rest _ := []
  data := ()

/-- `p` is between the lock and the unlock of `openFile` or `closeFile`. -/
def Inside (s : State) (p : Pid) : Prop :=
  (∃ rest, s.rest p = .act .openFiles :: rest) ∨
    ∃ rest, s.rest p = unlock :: .act .ret :: rest

structure Protected (s : State) : Prop where
  count : (s.sems ()).count ≤ 1
  /-- who unlocks the mutex holds it -/
  unlock : ∀ p rest, s.rest p = unlock :: rest → Inside s p
  one : ∀ p q, Inside s p → Inside s q → p = q

/-! ## Programs of sections -/

/-- A program whose every unlock is the end of a section. -/
inductive Bracketed : Program → Prop
  | nil : Bracketed []
  | other (h : Bracketed l) : Bracketed (.act .other :: l)
  | enclosed (h : Bracketed l) : Bracketed (lock :: .act .openFiles :: unlock :: .act .ret :: l)

namespace Bracketed

variable {l l' : Program}

theorem writeLoop {nextBlks : List Nat} (h : 0 ∉ nextBlks) : Bracketed (writeLoop nextBlks) := by
  induction nextBlks with
  | nil => exact .other .nil
  | cons nextBlk nextBlks ih =>
    rw [List.mem_cons, not_or] at h
    rw [OpenFilesMutex.writeLoop, if_neg (Ne.symm h.1)]
    exact .other (ih h.2)

theorem guarded_only : Bracketed guarded := .enclosed .nil

theorem prog {op : Op} (h : ¬op.Strays) : Bracketed op.prog := by
  cases op with
  | lookup => exact .other .nil
  | openFile => exact guarded_only
  | closeFile => exact guarded_only
  | lookupOpen found =>
    cases found with
    | false => exact .other .nil
    | true => exact .other guarded_only
  | remove found isDir fileSz entryOffset =>
    cases found with
    | false => exact .other .nil
    | true =>
      cases isDir with
      | true => exact .other guarded_only
      | false =>
        have hno : ¬(16 > fileSz ∨ w32 (16 + entryOffset) ≥ fileSz) :=
          fun h' => h ⟨rfl, rfl, h'⟩
        rw [not_or] at hno
        rw [Op.prog, remFromOffset, if_neg hno.1, if_neg hno.2]
        exact .other (.enclosed (.other (.other (.other .nil))))
  | mkdir fails nextBlks =>
    cases fails with
    | true => exact .other .nil
    | false => exact .other (.other (.other (writeLoop fun h' => h ⟨rfl, h'⟩)))
  | append nextBlks => exact .other (writeLoop h)

/-- Where a process can be. -/
theorem suffix {prog : Program} (h : Bracketed prog) (hs : l <:+ prog) :
    Bracketed l ∨ ∃ r, Bracketed r ∧
    (l = .act .openFiles :: unlock :: .act .ret :: r ∨ l = unlock :: .act .ret :: r ∨
      l = .act .ret :: r) := by
  induction h with
  | nil => exact .inl (List.suffix_nil.mp hs ▸ .nil)
  | other h ih =>
    rcases List.suffix_cons_iff.mp hs with rfl | hs
    · exact .inl (.other h)
    · exact ih hs
  | @enclosed r h ih =>
    rcases List.suffix_cons_iff.mp hs with rfl | hs
    · exact .inl (.enclosed h)
    rcases List.suffix_cons_iff.mp hs with rfl | hs
    · exact .inr ⟨r, h, .inl rfl⟩
    rcases List.suffix_cons_iff.mp hs with rfl | hs
    · exact .inr ⟨r, h, .inr (.inl rfl)⟩
    rcases List.suffix_cons_iff.mp hs with rfl | hs
    · exact .inr ⟨r, h, .inr (.inr rfl)⟩
    · exact ih hs

end Bracketed

/-! ## The balance -/

def weightOf : Action Unit Act → Int
  | .down _ => -1
  | .up _ => 1
  | .act _ => 0

theorem accounts : Accounts act () weightOf fun _ => 0 where
  down := rfl
  up := rfl
  other_down _ hy := absurd rfl hy
  other_up _ hy := absurd rfl hy
  act _ _ := rfl

theorem Bracketed.weight_eq {l : Program} (h : Bracketed l) : weight weightOf l = 0 := by
  induction h with
  | nil => rfl
  | other _ ih => rw [weight_cons, ih]; rfl
  | enclosed _ ih =>
    simp only [weight_cons, ih]
    rfl

variable {T : Finset Pid} {s s' : State} {p q : Pid} {l : Program}

theorem ends_position (h : Sched.Ends Calls l) : Bracketed l ∨ ∃ r, Bracketed r ∧
    (l = .act .openFiles :: unlock :: .act .ret :: r ∨ l = unlock :: .act .ret :: r ∨
      l = .act .ret :: r) := by
  rcases h with rfl | ⟨prog, ⟨op, hop, rfl⟩, hs⟩
  · exact .inl .nil
  · exact (Bracketed.prog hop).suffix hs

/-- What a process still has to unlock. -/
theorem ends_weight (h : Sched.Ends Calls l) : 0 ≤ weight weightOf l := by
  rcases ends_position h with h' | ⟨r, h', rfl | rfl | rfl⟩
  · rw [h'.weight_eq]
  · simp [weightOf, h'.weight_eq]
  · simp [weightOf, h'.weight_eq]
  · simp [weightOf, h'.weight_eq]

/-- A process inside has the mutex. -/
theorem inside_weight (h : Sched.Ends Calls (s.rest p)) (hp : Inside s p) :
    weight weightOf (s.rest p) = 1 := by
  rcases hp with ⟨rest, hr⟩ | ⟨rest, hr⟩
  · rw [hr] at h ⊢
    rcases ends_position h with h' | ⟨r, h', h | h | h⟩
    · cases h'
    · rw [h]
      simp [weightOf, h'.weight_eq]
    · cases h
    · cases h
  · rw [hr] at h ⊢
    rcases ends_position h with h' | ⟨r, h', h | h | h⟩
    · cases h'
    · cases h
    · rw [h]
      simp [weightOf, h'.weight_eq]
    · cases h

theorem unlock_inside (h : Sched.Ends Calls (s.rest p)) {rest : Program}
    (hr : s.rest p = unlock :: rest) : Inside s p := by
  rw [hr] at h
  rcases ends_position h with h' | ⟨r, -, h | h | h⟩
  · cases h'
  · cases h
  · exact .inr ⟨r, hr.trans h⟩
  · cases h

structure Inv (T : Finset Pid) (s : State) : Prop where
  threads : s.Inv T Calls
  unit : s.balance T () weightOf (fun _ => 0) = 1

namespace Inv

theorem count_le (I : Inv T s) (hp : p ∈ T) :
    (s.sems ()).count.toInt + weight weightOf (s.rest p) ≤ 1 := by
  have hle := le_account (T := T) (fun q => ends_weight (I.threads.ends q)) hp
  have hunit := I.unit
  simp only [Threads.balance] at hunit
  omega

theorem step {t : Turn Unit Act} (I : Inv T s) (h : s.Step act T Calls t s') : Inv T s' := by
  cases t with
  | call p prog =>
    obtain ⟨hp, hcall, hr, rfl⟩ := h
    obtain ⟨op, hop, rfl⟩ := id hcall
    exact ⟨I.threads.call hp hcall hr,
      (Accounts.call hp hr (Bracketed.prog hop).weight_eq).trans I.unit⟩
  | step p =>
    have hroom : ∀ x rest, s.rest p = .up x :: rest → (s.sems x).waiting = [] →
        (s.sems x).count ≠ 2147483647 := by
      intro x rest hr _ heq
      have hle := I.count_le (I.threads.mem hr)
      have hw := ends_weight (hr ▸ I.threads.ends p).tail
      rw [hr, weight_cons, weightOf, heq] at hle
      have hint : (2147483647 : Int32).toInt = 2147483647 := rfl
      omega
    exact ⟨I.threads.step hroom h, (accounts.step I.threads hroom h).trans I.unit⟩

theorem init (T : Finset Pid) : Inv T OpenFilesMutex.init := by
  refine ⟨⟨fun x => ⟨show (0 : Int32) ≤ 1 by decide, fun h => absurd rfl h⟩,
    fun x p hp => ?_, fun x => List.nodup_nil,
    fun p => .inl rfl, fun p _ => rfl⟩, ?_⟩
  · cases hp
  · have hzero : account T (weight weightOf) OpenFilesMutex.init.rest = 0 :=
      account_eq_zero fun _ _ => rfl
    rw [Threads.balance, hzero]
    rfl

theorem mem_of_inside (I : Inv T s) (hp : Inside s p) : p ∈ T := by
  rcases hp with ⟨rest, hr⟩ | ⟨rest, hr⟩
  · exact I.threads.mem hr
  · exact I.threads.mem hr

theorem protected_ (I : Inv T s) : Protected s where
  count := by
    have hw := account_nonneg (T := T) fun q => ends_weight (I.threads.ends q)
    have hunit := I.unit
    rw [Threads.balance] at hunit
    exact Int32.le_iff_toInt_le.mpr (show _ ≤ 1 by omega)
  unlock p rest hr := unlock_inside (I.threads.ends p) hr
  one p q hp hq := by
    by_contra hne
    have hle := add_le_account (fun q => ends_weight (I.threads.ends q)) (I.mem_of_inside hp)
      (I.mem_of_inside hq) hne
    have hunit := I.unit
    have hcount := Int32.le_iff_toInt_le.mp (I.threads.sound ()).count
    rw [inside_weight (I.threads.ends p) hp, inside_weight (I.threads.ends q) hq] at hle
    simp only [Threads.balance, Int32.toInt_zero] at hunit hcount
    omega

end Inv

/-- **The mutex protects its section** in every state of every run in which no operation takes a
path with an unlock of its own. -/
theorem mutex_protects {ts : List (Turn Unit Act)} (h : Run (Threads.Step act T Calls) init ts s) :
    Protected s :=
  (h.inv (fun _ _ _ I h => I.step h) (Inv.init T)).protected_

/-- One process is inside and another one waits for it. -/
theorem mutex_protects_open : ∃ s :
    State, Inside s 1 ∧ (s.sems ()).waiting = [2] ∧ Protected s := by
  have hrun : ([.call 1 Op.openFile.prog, .call 2 Op.closeFile.prog, .step 1, .step 2].foldlM
      (Threads.exec act) init).map (fun s => (s.rest 1, (s.sems ()).waiting)) =
        some ([.act .openFiles, unlock, .act .ret], [2]) := by
    decide
  obtain ⟨s, hs, he⟩ := Option.map_eq_some_iff.mp hrun
  have h := Threads.run_of_exec (T := {1, 2}) (P := Calls) (fun p prog h => ?_) hs
  · exact ⟨s, .inl ⟨_, congrArg Prod.fst he⟩, congrArg Prod.snd he, mutex_protects h⟩
  · simp only [List.mem_cons, Turn.call.injEq, reduceCtorEq, List.not_mem_nil, or_false] at h
    rcases h with ⟨rfl, rfl⟩ | ⟨rfl, rfl⟩
    · exact ⟨by simp, .openFile, id, rfl⟩
    · exact ⟨by simp, .closeFile, id, rfl⟩

/-- The only entry of a directory is removed; `remFromOffset` unlocks the mutex, and then two
processes are inside at once. -/
theorem mutex_unlocked_twice :
    (byteMount.step (.remove 0 (fun _ => 0) (fun _ => 0) [0x61])).map (·.2.fs.openFilesMutex) =
    some 2 ∧
    ∃ ts s, Run (Threads.Step act {0, 1, 2} fun prog => ∃ op : Op, prog = op.prog) init ts s ∧
      Inside s 1 ∧ Inside s 2 ∧ ¬Protected s := by
  refine ⟨by decide +kernel, ?_⟩
  have hrun : ([.call 0 (Op.remove true false 16 32).prog, .step 0, .step 0, .step 0,
      .step 0, .step 0,
      .step 0, .step 0, .step 0, .call 1 Op.openFile.prog, .call 2 Op.openFile.prog, .step 1,
      .step 2].foldlM (Threads.exec act) init).map (fun s => (s.rest 1, s.rest 2)) =
        some ([.act .openFiles, unlock, .act .ret], [.act .openFiles, unlock, .act .ret]) := by
    decide
  obtain ⟨s, hs, he⟩ := Option.map_eq_some_iff.mp hrun
  have h1 : Inside s 1 := .inl ⟨_, congrArg Prod.fst he⟩
  have h2 : Inside s 2 := .inl ⟨_, congrArg Prod.snd he⟩
  refine ⟨_, s, Threads.run_of_exec (fun p prog h => ?_) hs, h1, h2, ?_⟩
  · simp only [List.mem_cons, Turn.call.injEq, reduceCtorEq, List.not_mem_nil, or_false,
      false_or] at h
    rcases h with ⟨rfl, rfl⟩ | ⟨rfl, rfl⟩ | ⟨rfl, rfl⟩
    · exact ⟨by simp, _, rfl⟩
    · exact ⟨by simp, _, rfl⟩
    · exact ⟨by simp, _, rfl⟩
  · intro hp
    exact absurd (hp.one 1 2 h1 h2) (by decide)

/-! ## The paths of the source -/

/-- A path of `remFromOffset` unlocks as often as the function does. -/
theorem remFromOffset_unlocks {fs fs' : Fat439} {start entryOffset numBytes : Nat} {code : Int}
    (h : OpenFile.remFromOffset fs start entryOffset numBytes = (.ret code, fs')) :
    (fs'.openFilesMutex : Int) = fs.openFilesMutex +
      weight weightOf (remFromOffset (fs.metaData start).length entryOffset numBytes) := by
  rw [OpenFile.remFromOffset] at h
  rw [remFromOffset]
  dsimp only at h
  split at h
  next h1 =>
    cases h
    rw [if_pos h1]
    rfl
  next h1 =>
    rw [if_neg h1]
    split at h
    next h2 =>
      cases h
      rw [if_pos h2]
      rfl
    next h2 =>
      rw [if_neg h2]
      split at h
      · cases h
      · cases h
        rfl

theorem remNextAvail_mutex {fs : Fat439} :
    fs.remNextAvail.2.openFilesMutex = fs.openFilesMutex := by
  rw [Fat439.remNextAvail]
  dsimp only
  split <;> rfl

theorem writeLoop_mutex {fs : Fat439} {fuel blk tot : Nat} {buf : List UInt8} :
    (OpenFile.writeLoop fuel fs blk buf tot).2.1.openFilesMutex = fs.openFilesMutex := by
  induction fuel generalizing fs blk buf tot with
  | zero => rfl
  | succ fuel ih =>
    rw [OpenFile.writeLoop]
    split
    · rcases Nat.decEq (fs.fat blk) 0 with hne | h0
      · simp only [if_neg hne]
        exact ih
      · simp only [if_pos h0]
        split
        · exact remNextAvail_mutex
        · exact ih.trans remNextAvail_mutex
    · rfl

/-- `write` unlocks the mutex when there is no space, and only then. -/
theorem write_unlocks {fs fs' : Fat439} {start offset : Nat} {buf : List UInt8} {code : Int}
    (h : OpenFile.write fs start offset buf = (code, fs')) :
    fs'.openFilesMutex = fs.openFilesMutex + if code = ERR_NO_SPACE then 1 else 0 := by
  rw [OpenFile.write] at h
  dsimp only at h
  split at h
  · cases h
    rw [if_neg (by decide)]
    exact writeLoop_mutex
  · cases h
    rw [if_pos rfl]
    exact congrArg (· + 1) writeLoop_mutex

end K439.Fs.OpenFilesMutex
