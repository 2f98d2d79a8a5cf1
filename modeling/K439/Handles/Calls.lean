import K439.Handles.Descriptors
import K439.Handles.Uses

/-!
# System calls on files and directories

The system calls of `kernel/syscall.cc` that make files and directories, with what each path of them
does with the objects. A process is known by its table. A lookup of a name gives any block, or
nothing. A process is not in two system calls, and a call is one step.
-/

namespace K439.Handles.Tables

open Exit (ResourceType)
open Table (ERR_NOT_FOUND ERR_NO_ID)

namespace State

variable (s : State)

/-- `new Fat439File(content->fs->openFile(idx))` -/
def lookupFile (idx : Nat) : Id × State :=
  let (p, objects) := s.objects.openFile idx
  let (f, objects) := objects.newFile p
  (f, { s with objects := objects })

/-- `new Fat439Directory(content->fs, idx)` -/
def lookupDirectory (idx : Nat) : Id × State :=
  let (p, objects) := s.objects.openFile idx
  let (d, objects) := objects.newDirectory p
  (d, { s with objects := objects })

/-- `get(1, ResourceType::DIRECTORY)`, whose result is used; `none` if it is null or the slot is
empty. -/
def workingDir (t : Nat) : Option State :=
  match s.get t 1 .DIRECTORY with
  | .resource _ s => some s
  | .nullptr _ => none
  | .fault => none

/-- `root` and `wd` are what the root directory and the working directory have for the name. -/
def sysOpen (t : Nat) (root wd : Option Nat) : Option (Int × State) :=
  match root with
  | some idx => let (f, s) := s.lookupFile idx; some (s.open t f)
  | none => (s.workingDir t).map fun s =>
    match wd with
    | none => (ERR_NOT_FOUND, s)
    | some idx => let (f, s) := s.lookupFile idx; s.open t f

def sysClose (t : Nat) (a0 : Int) : Int × State := s.close t a0

/-- `path` is none for a null pointer, and else what the lookups of the path end with. -/
def sysCd (t : Nat) (path : Option (Option Nat)) : Option (Int × State) :=
  match path with
  | none => some (0, s)
  | some idx => (s.workingDir t).map fun s =>
    match idx with
    | none => (ERR_NOT_FOUND, s)
    | some idx => let (d, s) := s.lookupDirectory idx; (0, (s.addWorkingDir t d).2)

/-- `path` is none for an empty path, and else what its lookups end with; `code` is what the
directory returns. -/
def sysMkdir (t : Nat) (path : Option (Option Nat)) (code : Int) : Option (Int × State) :=
  (s.workingDir t).bind fun s =>
    match path with
    | none => some (code, s)
    | some idx => (s.workingDir t).map fun s =>
      match idx with
      | none => (ERR_NOT_FOUND, s)
      | some idx => (code, (s.lookupDirectory idx).2)

/-- `name` is none for a null pointer, and else what the working directory has for the name; `code`
is what the removal from a directory with the name returns. -/
def sysRm (t : Nat) (name : Option (Option Nat)) (code : Int) : Option (Int × State) :=
  match name with
  | none => some (ERR_NO_ID, s)
  | some blk => (s.workingDir t).map fun s =>
    match blk with
    | none => (ERR_NOT_FOUND, s)
    | some blk => (code, { s with objects := (s.objects.openFile blk).2 })

/-- The child gets its table before its own object is complete. -/
def sysFork (t : Nat) : Int × State :=
  let s := s.forkMe t
  let (child, objects) :=
    s.objects.make
      { type := .PROCESS, count := 1, deleted := false, openFile := 0, start := 0, offset := 0 }
  ({ s with objects := objects } : State).open t child

/-- `prog` is what the root directory has for the name. A program that is found is run. -/
def sysExecv (t : Nat) (prog : Option Nat) : State :=
  match prog with
  | none => s
  | some idx => (s.lookupFile idx).2.closeAll t

def sysExit (t : Nat) : Option State :=
  ((s.closeAll t).closeWorkingDir t).map fun (_, s) => { s with live := s.live.erase t }

end State

inductive SysCall
  | open (root wd : Option Nat)
  | close (a0 : Int)
  | cd (path : Option (Option Nat))
  | mkdir (path : Option (Option Nat)) (code : Int)
  | rm (name : Option (Option Nat)) (code : Int)
  | fork
  | execv (prog : Option Nat)
  | exit

/-- The state after a system call of the process with the table `t`; `none` if it reads through a
null pointer. -/
def SysCall.run (s : State) (t : Nat) : SysCall → Option State
  | .open root wd => (s.sysOpen t root wd).map Prod.snd
  | close a0 => some (s.sysClose t a0).2
  | cd path => (s.sysCd t path).map Prod.snd
  | mkdir path code => (s.sysMkdir t path code).map Prod.snd
  | rm name code => (s.sysRm t name code).map Prod.snd
  | fork => some (s.sysFork t).2
  | execv prog => some (s.sysExecv t prog)
  | exit => s.sysExit t

/-- A system call of a process that has not exited. -/
def SysStep (s : State) (l : Nat × SysCall) (s' : State) : Prop :=
  l.1 ∈ s.live ∧ l.2.run s l.1 = some s'

/-- The root directory, which the file system has made. -/
def rootdir : Id := 1

/-- `Init` with the root directory as its working directory. -/
def started (root : Nat) : State :=
  let s := (State.init.lookupDirectory root).2
  let s : State := { s with objects := (s.objects.make ⟨.PROCESS, 1, false, 0, 0, 0⟩).2 }
  let s := ((s.newTable 100).addWorkingDir 0 rootdir).2
  { s with objects := s.objects.ref rootdir }

/-- `Init` has found the shell at the block `shell`, and runs it. -/
def booted (root shell : Nat) : State := (started root).sysExecv 0 (some shell)

/-- A file or directory that a system call has made is in a table or deleted, and the file of a
block is open only if a file or directory refers to it. `boot` is the number of the first object
that a system call makes. -/
structure Reclaimed (boot : Id) (s : State) : Prop where
  held : ∀ f, boot ≤ f → s.objects.Live f →
    (s.objects.resources f).type = .FILE ∨ (s.objects.resources f).type = .DIRECTORY →
      ∃ e, s.array e = some f
  closed : ∀ b, (∀ f p, s.objects.Handle f p → (s.objects.resources p).start ≠ b) →
    s.objects.openFiles b = none

/-- The references that a system call takes. -/
def SysCall.takes (s : State) (t : Nat) : SysCall → List Id
  | .open root wd => (root.or wd).toList.map fun idx => (s.objects.openFile idx).1
  | cd (some (some idx)) => [(s.objects.openFile idx).1]
  | fork => s.forks t (List.range (s.n t))
  | _ => []

/-- The working directory of `t` has another reference, or is not a directory. -/
def State.Shared (s : State) (t : Nat) : Prop :=
  ∀ d, s.array (t, 1) = some d → (s.objects.resources d).count ≠ 1

/-- The paths of the system calls that keep no object: a file that is found has a slot, the working
directory is not the last reference to its directory when it is left, a directory is made in the
working directory, no name is found that is to be removed, and no program that is to be run. And no
count wraps. -/
def SysCall.Keeps (s : State) (t : Nat) (c : SysCall) : Prop :=
  (match c with
    | .open root wd => (root.or wd).isSome → s.freeSlot t ≠ none
    | cd path => path.join.isSome → s.Shared t
    | mkdir path _ => path.join = none
    | rm name _ => name.join = none
    | execv prog => prog = none
    | exit => s.Shared t
    | close _ | fork => True) ∧
  ∀ r ∈ c.takes s t, (s.objects.resources r).count + (c.takes s t).count r < 0x100000000

/-! ## What a call keeps -/

/-- Only the root directory and the processes have references outside of the tables, and only the
objects of `free` have none at all. A file is in one slot, and a directory in that of the working
directory. -/
structure Tidy (free : List Id) (s : State) (others : Id → Nat) : Prop where
  sound : Sound s others
  others : ∀ r, others r ≠ 0 → r = rootdir ∧ (s.objects.resources r).type = .DIRECTORY ∨
    (s.objects.resources r).type = .PROCESS
  plain : ∀ r ∈ free, r < s.objects.next ∧ (s.objects.resources r).type ≠ .OTHER
  used : ∀ r, s.objects.Live r → r ∉ free → 0 < (s.objects.resources r).count
  single : ∀ f, s.objects.Live f → (s.objects.resources f).type = .FILE →
    (s.objects.resources f).count ≤ 1
  dirs : ∀ e d, s.array e = some d → (s.objects.resources d).type = .DIRECTORY → e.2 = 1

variable {s s' : State} {free : List Id} {others others' : Id → Nat} {e : Nat × Nat} {r p : Id}
  {x : Resource} {idx t c i : Nat}

/-- What `forkMe` does to the objects there were, and to the clone of a file. -/
theorem forkMe_raised {s : Objects} (hr : s.Live r)
    (hne : (s.resources r).type = .FILE → r ≠ (s.resources r).openFile)
    (hlt : ∀ p, forkRef s r = some p → (s.resources p).count + 1 < 0x100000000) :
    Raised s (s.forkMe r).2 ∧ ∀ y, s.next ≤ y → (s.forkMe r).2.Live y →
      (s.resources r).type = .FILE ∧
      ((s.forkMe r).2.resources y).count = (s.resources r).count := by
  have hold : ∀ o : Objects, o.next = s.next → ∀ y, s.next ≤ y → ¬o.Live y :=
    fun o hn y hy hl => Nat.not_lt.mpr hy (hn ▸ hl.1)
  have href : ∀ p, forkRef s r = some p → Raised s ((s.use r).ref p) := fun p hp =>
    (Objects.use_raised s r).trans (Nat.le_refl _) (Objects.ref_raised (hlt p hp))
  by_cases hp : (s.resources r).type = .PROCESS
  · rw [Objects.forkMe_process hp]
    exact ⟨Objects.use_raised s r, fun y hy hl => absurd hl (hold (s.use r) rfl y hy)⟩
  by_cases hf : (s.resources r).type = .FILE
  · have hr' := Objects.cloneFile_live (p := (s.resources r).openFile) hr
    have hcount := Objects.cloneFile_count hr'
    rw [Objects.ref_resources, if_neg (hne hf)] at hcount
    rw [Objects.forkMe_clone hf]
    refine ⟨(href _ (forkRef_file hf)).trans (Nat.le_refl _) (Objects.cloneFile_raised hr'),
      fun y hy hl => ⟨hf, ?_⟩⟩
    have hy' : y = s.next := by
      have hlt' := hl.1
      rw [Objects.cloneFile_eq hr'] at hlt'
      exact Nat.le_antisymm (Nat.le_of_lt_succ hlt') hy
    rw [hy']
    exact hcount
  · rw [Objects.forkMe_shared hp hf]
    exact ⟨href r (forkRef_shared hp hf),
      fun y hy hl => absurd hl (hold ((s.use r).ref r) rfl y hy)⟩

namespace Tidy

variable (T : Tidy free s others)
include T

theorem opened (b : Nat) (q : Id) (h : s.objects.openFiles b = some q) :
    0 < (s.objects.resources q).count := by
  obtain ⟨hq, ht, -⟩ := (T.sound.inv.cache b q).mp h
  exact T.used q hq fun hf => (T.plain q hf).2 ht

/-- A step that leaves the references outside of the tables alone. -/
theorem moves {free' : List Id} (M : Moves s others s' others)
    (hfree : ∀ r ∈ free', r < s'.objects.next ∧ (s'.objects.resources r).type ≠ .OTHER)
    (hused : ∀ r, s'.objects.Live r → r ∉ free' → 0 < (s'.objects.resources r).count)
    (hsingle : ∀ f, s'.objects.Live f → (s'.objects.resources f).type = .FILE →
      (s'.objects.resources f).count ≤
    1) (hdirs : ∀ e d, s'.array e = some d → (s'.objects.resources d).type = .DIRECTORY →
      e.2 = 1) : Tidy free' s' others := by
  refine ⟨M.sound, fun r hr => ?_, hfree, hused, hsingle, hdirs⟩
  have hlive := T.sound.inv.live (.loose 0) r (Nat.pos_of_ne_zero hr)
  rw [M.typed.type r hlive.1]
  exact T.others r hr

theorem use (hr : s.objects.Live r) : Tidy free { s with objects := s.objects.use r } others :=
  T.moves (T.sound.use hr) T.plain T.used T.single T.dirs

theorem plain_of (K : Typed s.objects s'.objects) :
    ∀ r ∈ free, r < s'.objects.next ∧ (s'.objects.resources r).type ≠ .OTHER := by
  intro r hr
  obtain ⟨hlt, ht⟩ := T.plain r hr
  rw [K.type r hlt]
  exact ⟨hlt.trans_le K.next, ht⟩

/-- A directory that is in its slot is there after the step too. -/
theorem dirs_of (K : Typed s.objects s'.objects)
    (h : ∀ e d, s'.array e = some d → s.array e = some d ∨
      ((s'.objects.resources d).type = .DIRECTORY → e.2 = 1)) :
    ∀ e d, s'.array e = some d → (s'.objects.resources d).type = .DIRECTORY → e.2 = 1 := by
  intro e d hd ht
  rcases h e d hd with hd | hd
  · rw [K.type d (T.sound.live hd).1] at ht
    exact T.dirs e d hd ht
  · exact hd ht

theorem closeSlot (h : ∀ r, s.array e = some r → (s.objects.resources r).type = .DIRECTORY →
    (s.objects.resources r).count ≠ 1) : Tidy free (s.closeSlot e) others := by
  obtain ⟨others', M, heq⟩ := T.sound.closeSlot e
  obtain rfl := heq h
  have hlow : Lowered s.objects (s.closeSlot e).objects := by
    rw [State.closeSlot]
    rcases hr : s.array e with _ | r
    · exact Lowered.refl
    · refine T.sound.inv.unref_lowered (fun b q hq => ?_) (T.sound.inv.place_pos hr)
        (T.sound.type e r hr)
      exact T.opened b q hq
  refine T.moves M (T.plain_of M.typed) (fun r hr hf => ?_) (fun f hf ht => ?_)
    (T.dirs_of M.typed fun e' d hd => ?_)
  · obtain ⟨hr', -, hpos⟩ := hlow r hr
    exact hpos (T.used r hr' hf)
  · obtain ⟨hf', hle, -⟩ := hlow f hf
    rw [M.typed.type f hf'.1] at ht
    exact hle.trans (T.single f hf' ht)
  · rw [State.closeSlot_array] at hd
    split at hd
    · cases hd
    · exact .inl hd

theorem closeSlots (l : List Nat) (hl : ∀ i ∈ l, 2 ≤ i) :
    Tidy free (l.foldl (fun s i => s.closeSlot (t, i)) s) others := by
  induction l generalizing s with
  | nil => exact T
  | cons i l ih =>
    refine ih (T.closeSlot fun r hr ht => ?_) fun j hj => hl j (List.mem_cons_of_mem _ hj)
    have hi : i = 1 := T.dirs _ r hr ht
    have := hl i List.mem_cons_self
    omega

theorem closeAll (t : Nat) : Tidy free (s.closeAll t) others :=
  T.closeSlots _ fun _ hi => (List.mem_range'_1.mp hi).1

theorem close (t : Nat) (i : Int) : Tidy free (s.close t i).2 others := by
  rw [State.close]
  split
  · exact T
  split
  · exact T
  split
  · exact T
  next h0 _ h1 =>
    refine T.closeSlot fun r hr ht => ?_
    have hi : i.toNat = 1 := T.dirs _ r hr ht
    omega

/-- A slot gets an object, which is not free any more. -/
theorem refSlot (he : s.array e = none) (hslot : e.1 < s.next ∧ e.2 < s.n e.1) (hp : s.May p)
    (hlt : (s.objects.resources p).count + 1 < 0x100000000)
    (hfile : (s.objects.resources p).type = .FILE → (s.objects.resources p).count = 0)
    (hdir : (s.objects.resources p).type = .DIRECTORY → e.2 = 1) {free' : List Id}
    (hfree : ∀ x ∈ free', x ∈ free) (hmore : ∀ x ∈ free, x ∈ free' ∨ x = p) :
    Tidy free' (s.refSlot e p) others := by
  have M := T.sound.refSlot he hslot hp hlt
  have hres : ∀ x, (s.refSlot e p).objects.resources x =
      { s.objects.resources x with
        count := if x = p then (s.objects.resources p).count + 1
          else (s.objects.resources x).count } := by
    intro x
    rw [State.refSlot, Objects.ref_resources, Nat.mod_eq_of_lt hlt]
  refine T.moves M (fun r hr => T.plain_of M.typed r (hfree r hr)) (fun r hr hf => ?_)
    (fun f hf ht => ?_)
    (T.dirs_of M.typed fun e' d hd => ?_)
  · rw [Objects.Live, hres] at hr
    rw [hres]
    dsimp only
    split
    next => exact Nat.succ_pos _
    next hne => exact T.used r hr fun h => (hmore r h).elim hf hne
  · rw [Objects.Live, hres] at hf
    rw [hres] at ht ⊢
    dsimp only
    split
    next h =>
      rw [hfile (by rw [← h]; exact ht)]
    next => exact T.single f hf ht
  · rw [State.refSlot_array] at hd
    split at hd
    next h =>
      obtain rfl := Option.some.inj hd
      rw [hres, h]
      exact .inr hdir
    next => exact .inl hd

/-- `open` with a free slot. -/
theorem open_free (ht : t ∈ s.live) (hs : s.freeSlot t ≠ none) (hp : s.May p)
    (hlt : (s.objects.resources p).count + 1 < 0x100000000)
    (hfile : (s.objects.resources p).type = .FILE → (s.objects.resources p).count = 0)
    (hdir : (s.objects.resources p).type ≠ .DIRECTORY) {free' : List Id}
    (hfree : ∀ x ∈ free', x ∈ free) (hmore : ∀ x ∈ free, x ∈ free' ∨ x = p) :
    Tidy free' (s.open t p).2 others := by
  obtain ⟨i, hi⟩ := Option.ne_none_iff_exists'.mp hs
  obtain ⟨hnone, hslot⟩ := T.sound.freeSlot ht hi
  rw [State.open, hi]
  exact T.refSlot hnone hslot hp hlt hfile (fun h => absurd h hdir) hfree hmore

theorem «open» (ht : t ∈ s.live) (hp : s.May p)
    (hlt : (s.objects.resources p).count + 1 < 0x100000000)
    (hfile : (s.objects.resources p).type ≠ .FILE)
    (hdir : (s.objects.resources p).type ≠ .DIRECTORY) : Tidy free (s.open t p).2 others := by
  by_cases hs : s.freeSlot t = none
  · rw [State.open, hs]
    exact T
  · exact T.open_free ht hs hp hlt (fun h => absurd h hfile) hdir (fun _ => id) fun _ => .inl

/-- A new handle has no references. -/
theorem newHandle {b : Nat}
    (hlt : (s.objects.resources (s.objects.openFile b).1).count + 1 < 0x100000000)
    (hx : (x.type = .FILE ∨ x.type = .DIRECTORY) ∧ x.openFile = (s.objects.openFile b).1)
    (hd : x.deleted = false) (h0 : x.count = 0) :
    Tidy ((s.objects.openFile b).2.next :: free)
    { s with objects := (((s.objects.openFile b).2.use (s.objects.openFile b).1).make x).2 }
    others := by
  have M := T.sound.newHandle hlt hx hd h0
  obtain ⟨K, -, -⟩ := T.sound.inv.openFile_kept (b := b)
  obtain ⟨hraised, hnew⟩ := Objects.openFile_raised hlt
  have hres : ∀ y, (((s.objects.openFile b).2.use (s.objects.openFile b).1).make x).2.resources
      y =
      if y = (s.objects.openFile b).2.next then x else (s.objects.openFile b).2.resources y :=
    Objects.make_resources
  have hlive : ∀ y ≠ (s.objects.openFile b).2.next,
      (((s.objects.openFile b).2.use (s.objects.openFile b).1).make x).2.Live y →
        (s.objects.openFile b).2.Live y :=
    fun y hy h => ((Objects.make_live hd).mp h).resolve_right hy
  refine T.moves M (fun r hr => ?_) (fun r hr hf => ?_) (fun f hf ht => ?_)
    (T.dirs_of M.typed fun _ _ => .inl)
  · rcases List.mem_cons.mp hr with rfl | hr
    · refine ⟨Nat.lt_succ_self _, ?_⟩
      rw [hres, if_pos rfl]
      rcases hx.1 with hx | hx <;> simp [hx]
    · exact T.plain_of M.typed r hr
  · obtain ⟨hne, hf⟩ := not_or.mp (mt List.mem_cons.mpr hf)
    have hr' := hlive r hne hr
    rw [hres, if_neg hne]
    rcases Nat.lt_or_ge r s.objects.next with hlt' | hge
    · obtain ⟨hr₁, hle⟩ := hraised r hlt' hr'
      exact (T.used r hr₁ hf).trans_le hle
    · exact (hnew r hge hr').1
  · rw [hres] at ht ⊢
    split
    next => rw [h0]; exact Nat.zero_le _
    next hne =>
      rw [if_neg hne] at ht
      have hf' := hlive f hne hf
      rcases Nat.lt_or_ge f s.objects.next with hlt' | hge
      · have hother : (s.objects.resources f).type ≠ .OTHER := by
          rw [← K.type f hlt', ht]
          nofun
        rw [K.same f hlt' hother] at ht ⊢
        exact T.single f (hraised f hlt' hf').1 ht
      · rw [(hnew f hge hf').2] at ht
        cases ht

/-- A file in a slot has no other references. -/
theorem count_file (h : s.array e = some r) (hf : (s.objects.resources r).type = .FILE) :
    (s.objects.resources r).count = 1 :=
  Nat.le_antisymm (T.single r (T.sound.live h) hf) (T.sound.inv.place_pos h)

theorem forkRef_ne (h : s.array e = some r) {f : Id} (hf : (s.objects.resources f).type = .FILE) :
    forkRef s.objects r ≠ some f := by
  intro heq
  rw [forkRef] at heq
  split at heq
  · cases heq
  next ht =>
    cases heq
    rw [T.sound.inv.file r _ ⟨T.sound.live h, .inl ht, rfl⟩] at hf
    cases hf
  next _ hne =>
    cases heq
    exact hne hf

/-- What a turn of `forkMe` puts into a slot. -/
theorem fork_dirs (h : s.array (t, i) = some r) {d : Id} (hd : (s.objects.forkMe r).1 = some d)
    (ht : ((s.objects.forkMe r).2.resources d).type = .DIRECTORY) : i = 1 := by
  have hr := T.sound.live h
  have K := Objects.forkMe_typed hr
  by_cases hp : (s.objects.resources r).type = .PROCESS
  · rw [Objects.forkMe_process hp] at hd
    cases hd
  by_cases hf : (s.objects.resources r).type = .FILE
  · have hr' := Objects.cloneFile_live (p := (s.objects.resources r).openFile) hr
    have htype := Objects.cloneFile_type hr'
    rw [Objects.forkMe_clone hf] at hd ht
    rw [Objects.cloneFile_eq hr'] at hd
    obtain rfl := Option.some.inj hd
    rw [htype] at ht
    cases ht
  · rw [Objects.forkMe_shared hp hf] at hd
    obtain rfl := Option.some.inj hd
    rw [K.type r hr.1] at ht
    exact T.dirs _ r h ht

theorem forkSlot (hc : s.array (c, i) = none) (hslot : c < s.next ∧ i < s.n c)
    (hlt : ∀ x, (s.array (t, i)).bind (forkRef s.objects) = some x →
      (s.objects.resources x).count + 1 < 0x100000000) :
    Moves s others (s.forkSlot t c i) others ∧ Tidy free (s.forkSlot t c i) others := by
  obtain ⟨others', M, heq⟩ := T.sound.forkSlot hc hslot hlt
  have hothers : others' = others := by
    rcases heq with rfl | ⟨r, hr, hf, heq⟩
    · rfl
    have hnext : others s.objects.next = 0 :=
      Nat.eq_zero_of_not_pos (T.sound.inv.not_holds_next (.loose 0))
    funext x
    have := congrFun heq x
    rw [T.count_file hr hf] at this
    rcases eq_or_ne x s.objects.next with rfl | hne
    · rw [Function.update_self, Function.update_self] at this
      rw [hnext]
      exact (Nat.succ_injective this).symm
    · rw [Function.update_of_ne hne, Function.update_of_ne hne] at this
      exact this.symm
  subst hothers
  rcases h : s.array (t, i) with _ | r
  · have hs : s.forkSlot t c i = s := by
      rw [State.forkSlot, h]
      dsimp only
      rw [Function.update_eq_self_iff.mpr hc.symm]
    rw [hs]
    exact ⟨T.sound.moves, T⟩
  rw [h] at hlt
  have hr := T.sound.live h
  have hobjects : (s.forkSlot t c i).objects = (s.objects.forkMe r).2 := by
    rw [State.forkSlot, h]
  have hne : (s.objects.resources r).type = .FILE → r ≠ (s.objects.resources r).openFile := by
    intro hf heq
    have hp := T.sound.inv.file r _ ⟨hr, .inl hf, rfl⟩
    rw [← heq, hf] at hp
    cases hp
  obtain ⟨hraised, hnew⟩ := forkMe_raised hr hne hlt
  rw [← hobjects] at hraised hnew
  refine ⟨M, T.moves M (T.plain_of M.typed) (fun x hx hf => ?_) (fun f hf ht => ?_)
    (T.dirs_of M.typed fun e d hd => ?_)⟩
  · rcases Nat.lt_or_ge x s.objects.next with hx' | hx'
    · obtain ⟨hx₁, hle⟩ := hraised x hx' hx
      exact (T.used x hx₁ hf).trans_le hle
    · rw [(hnew x hx' hx).2]
      exact T.sound.inv.place_pos h
  · rcases Nat.lt_or_ge f s.objects.next with hf' | hf'
    · rw [M.typed.type f hf'] at ht
      rw [hobjects, forkMe_count hr hf' hlt, if_neg (T.forkRef_ne h ht)]
      exact T.single f (hraised f hf' hf).1 ht
    · obtain ⟨htype, hcount⟩ := hnew f hf' hf
      rw [hcount]
      exact T.single r hr htype
  · by_cases he : e = (c, i)
    · right
      intro ht
      have hd' : (s.objects.forkMe r).1 = some d := by
        rwa [he, State.forkSlot_self h] at hd
      rw [hobjects] at ht
      rw [he]
      exact T.fork_dirs h hd' ht
    · rw [State.forkSlot_array he] at hd
      exact .inl hd

theorem newTable {n : Nat} (hn : 2 ≤ n) : Tidy free (s.newTable n) others :=
  T.moves (T.sound.newTable hn) T.plain T.used T.single T.dirs

theorem forkMe (ht : t ∈ s.live)
    (hlt : ∀ x, (s.objects.resources x).count + (s.forks t (List.range (s.n t))).count x <
      0x100000000) :
    ∃ others', Moves s others (s.forkMe t) others' ∧ Tidy free (s.forkMe t) others' :=
  T.sound.forkMe ht (T.newTable (T.sound.table t ht).2)
    (fun _ others _ _ T hc hslot hlt => ⟨others, T.forkSlot hc hslot hlt⟩) hlt

/-- A new process has a reference to itself. -/
theorem newProcess :
    Tidy free { s with objects := (s.objects.make ⟨.PROCESS, 1, false, 0, 0, 0⟩).2 }
    (Function.update others s.objects.next 1) := by
  have M := T.sound.newProcess
  have hres : ∀ y, (s.objects.make ⟨.PROCESS, 1, false, 0, 0, 0⟩).2.resources y =
      if y = s.objects.next then ⟨.PROCESS, 1, false, 0, 0, 0⟩ else s.objects.resources y :=
        Objects.make_resources
  have hlive :
      ∀ y ≠ s.objects.next, (s.objects.make ⟨.PROCESS, 1, false, 0, 0, 0⟩).2.Live y →
      s.objects.Live y :=
    fun y hy h => ((Objects.make_live rfl).mp h).resolve_right hy
  refine ⟨M.sound, fun r hr => ?_, T.plain_of M.typed, fun r hr hf => ?_, fun f hf ht => ?_,
    T.dirs_of M.typed fun _ _ => .inl⟩
  · rw [hres]
    split
    next => exact .inr rfl
    next hne =>
      rw [Function.update_of_ne hne] at hr
      exact T.others r hr
  · rw [hres]
    split
    next => exact Nat.one_pos
    next hne => exact T.used r (hlive r hne hr) hf
  · rw [hres] at ht ⊢
    split
    next => exact Nat.le_refl _
    next hne =>
      rw [if_neg hne] at ht
      exact T.single f (hlive f hne hf) ht

end Tidy

/-! ## The calls -/

theorem get_resource {fd : Int} {type : ResourceType} (h : s.get t fd type = .resource r s') :
    s.array (t, fd.toNat) = some r ∧ s' = { s with objects := s.objects.use r } := by
  rw [State.get] at h
  split at h
  · cases h
  split at h
  · cases h
  split at h
  · cases h
  next res hres =>
    dsimp only at h
    split at h
    · cases h
    · cases h
      exact ⟨hres, rfl⟩

theorem workingDir_eq (h : s.workingDir t = some s') : ∃ r, s.array (t, 1) = some r ∧
    s' = { s with objects := s.objects.use r } := by
  rw [State.workingDir] at h
  split at h
  next r s₁ hget =>
    cases h
    exact ⟨r, get_resource hget⟩
  next => cases h
  next => cases h

/-- A free directory replaces a working directory that has other references. -/
theorem Tidy.addWorkingDir {d : Id} (T : Tidy (d :: free) s others) (ht : t ∈ s.live)
    (hd : s.objects.Live d) (htype : (s.objects.resources d).type = .DIRECTORY)
    (h0 : (s.objects.resources d).count = 0) (hshared : s.Shared t) :
    Tidy free (s.addWorkingDir t d).2 others := by
  have T₁ := T.use hd
  have T₂ := T₁.closeSlot (e := (t, 1)) fun r hr _ => hshared r hr
  have hmay : s.May d := ⟨hd, by simp [htype]⟩
  have hapart : s.array (t, 1) = some d → (s.objects.resources d).count ≠ 1 := fun _ => by
    rw [h0]
    nofun
  have hlt : (s.objects.resources d).count + 1 < 0x100000000 := by
    rw [h0]
    decide
  obtain ⟨hmay', hlt'⟩ := T₁.sound.closed (e := (t, 1)) hmay hapart fun _ => hlt
  have htype' := (Objects.unref_typed (s.objects.use d) (s.array (t, 1))).type d hd.1
  rw [State.addWorkingDir_eq htype]
  refine T₂.refSlot State.closeSlot_self (T.sound.table t ht) hmay' hlt' (fun hf => ?_)
    (fun _ => rfl)
    (fun x hx => List.mem_cons_of_mem _ hx) fun x hx => (List.mem_cons.mp hx).symm
  have : (s.objects.resources d).type = .FILE := htype'.symm.trans hf
  rw [htype] at this
  cases this

namespace Tidy

variable (T : Tidy free s others)
include T

theorem workingDir (h : s.workingDir t = some s') : Tidy free s' others := by
  obtain ⟨r, hr, rfl⟩ := workingDir_eq h
  exact T.use (T.sound.live hr)

/-- A file that is found goes into a slot. -/
theorem lookupFile (ht : t ∈ s.live) (hs : s.freeSlot t ≠ none)
    (hlt : (s.objects.resources (s.objects.openFile idx).1).count + 1 < 0x100000000) :
    Tidy free ((s.lookupFile idx).2.open t (s.lookupFile idx).1).2 others := by
  have T' := T.newHandle (x := ⟨.FILE, 0, false, (s.objects.openFile idx).1, 0, 0⟩) hlt
      ⟨.inl rfl, rfl⟩ rfl rfl
  have hres : (((s.objects.openFile idx).2.use (s.objects.openFile idx).1).make
      ⟨.FILE, 0, false, (s.objects.openFile idx).1, 0, 0⟩).2.resources
        (s.objects.openFile idx).2.next =
        ⟨.FILE, 0, false, (s.objects.openFile idx).1, 0, 0⟩ := Function.update_self ..
  refine T'.open_free (p := (s.objects.openFile idx).2.next) ht hs ⟨⟨Nat.lt_succ_self _, ?_⟩,
    ?_⟩ ?_ (fun _ => ?_) ?_
    (fun x hx => List.mem_cons_of_mem _ hx) fun x hx => (List.mem_cons.mp hx).symm
  all_goals
    dsimp only
    rw [hres]
  · nofun
  · exact (by decide : 0 + 1 < 0x100000000)
  · nofun

theorem sysOpen {root wd : Option Nat} {rc : Int} (ht : t ∈ s.live)
    (hs : (root.or wd).isSome → s.freeSlot t ≠ none) (hlt : ∀ idx, root.or wd = some idx →
      (s.objects.resources (s.objects.openFile idx).1).count + 1 <
    0x100000000) (h : s.sysOpen t root wd = some (rc, s')) : Tidy free s' others := by
  cases root with
  | some idx =>
    have heq : (s.lookupFile idx).2.open t (s.lookupFile idx).1 = (rc, s') := Option.some.inj h
    have T' := T.lookupFile ht (hs rfl) (hlt idx rfl)
    rwa [heq] at T'
  | none =>
    obtain ⟨s₁, h₁, h⟩ := Option.map_eq_some_iff.mp h
    have T₁ := T.workingDir h₁
    obtain ⟨r, -, rfl⟩ := workingDir_eq h₁
    cases wd with
    | none =>
      cases h
      exact T₁
    | some idx =>
      have hcount : ((s.objects.use r).resources ((s.objects.use r).openFile idx).1).count + 1 <
          0x100000000 := by
        rw [Objects.use_openFile]
        exact hlt idx rfl
      have T' := lookupFile T₁ ht (hs rfl) hcount
      have heq : State.open (State.lookupFile { s with objects := s.objects.use r } idx).2 t
        (State.lookupFile { s with objects := s.objects.use r } idx).1 = (rc, s') := h
      rwa [heq] at T'

/-- A directory that is found is the new working directory. -/
theorem lookupDirectory (ht : t ∈ s.live) (hshared : s.Shared t)
    (hlt : (s.objects.resources (s.objects.openFile idx).1).count + 1 < 0x100000000) :
    Tidy free ((s.lookupDirectory idx).2.addWorkingDir t (s.lookupDirectory idx).1).2 others := by
  have T' := T.newHandle (x := ⟨.DIRECTORY, 0, false, (s.objects.openFile idx).1, 0, 0⟩) hlt
      ⟨.inr rfl, rfl⟩ rfl rfl
  have hres : (((s.objects.openFile idx).2.use (s.objects.openFile idx).1).make
      ⟨.DIRECTORY, 0, false, (s.objects.openFile idx).1, 0, 0⟩).2.resources
        (s.objects.openFile idx).2.next =
        ⟨.DIRECTORY, 0, false, (s.objects.openFile idx).1, 0, 0⟩ := Function.update_self ..
  obtain ⟨K, -⟩ := T.sound.inv.openFile_kept (b := idx)
  refine addWorkingDir (d := (s.objects.openFile idx).2.next) T' ht ⟨Nat.lt_succ_self _,
    congrArg _ hres⟩ (congrArg _ hres)
    (congrArg _ hres) fun r hr => ?_
  have hlive := T.sound.live hr
  have K' := K.trans (Objects.newDirectory_kept (s.objects.openFile idx).2
      (s.objects.openFile idx).1)
  have hsame := K'.same r hlive.1 (T.sound.type _ r hr)
  intro h1
  refine hshared r hr ?_
  rw [← hsame]
  exact h1

theorem sysCd {path : Option (Option Nat)} {rc : Int} (ht : t ∈ s.live)
    (hs : path.join.isSome → s.Shared t) (hlt : ∀ idx, path = some (some idx) →
      (s.objects.resources (s.objects.openFile idx).1).count + 1 <
    0x100000000) (h : s.sysCd t path = some (rc, s')) : Tidy free s' others := by
  cases path with
  | none =>
    cases h
    exact T
  | some idx =>
    obtain ⟨s₁, h₁, h⟩ := Option.map_eq_some_iff.mp h
    have T₁ := T.workingDir h₁
    obtain ⟨r, -, rfl⟩ := workingDir_eq h₁
    cases idx with
    | none =>
      cases h
      exact T₁
    | some idx =>
      have hcount : ((s.objects.use r).resources ((s.objects.use r).openFile idx).1).count + 1 <
          0x100000000 := by
        rw [Objects.use_openFile]
        exact hlt idx rfl
      have T' := T₁.lookupDirectory ht (hs rfl) hcount
      have heq : (0,
          (State.addWorkingDir (State.lookupDirectory { s with objects := s.objects.use r } idx).2 t
        (State.lookupDirectory { s with objects := s.objects.use r } idx).1).2) = (rc, s') := h
      rwa [(Prod.ext_iff.mp heq).2] at T'

theorem sysMkdir {path : Option (Option Nat)} {code rc : Int} (hs : path.join = none)
    (h : s.sysMkdir t path code = some (rc, s')) : Tidy free s' others := by
  obtain ⟨s₁, h₁, h⟩ := Option.bind_eq_some_iff.mp h
  have T₁ := T.workingDir h₁
  cases path with
  | none =>
    cases h
    exact T₁
  | some idx =>
    obtain rfl : idx = none := hs
    obtain ⟨s₂, h₂, h⟩ := Option.map_eq_some_iff.mp h
    cases h
    exact T₁.workingDir h₂

theorem sysRm {name : Option (Option Nat)} {code rc : Int} (hs : name.join = none)
    (h : s.sysRm t name code = some (rc, s')) : Tidy free s' others := by
  cases name with
  | none =>
    cases h
    exact T
  | some blk =>
    obtain rfl : blk = none := hs
    obtain ⟨s₁, h₁, h⟩ := Option.map_eq_some_iff.mp h
    cases h
    exact T.workingDir h₁

theorem sysFork (ht : t ∈ s.live)
    (hlt : ∀ x, (s.objects.resources x).count + (s.forks t (List.range (s.n t))).count x <
      0x100000000) :
    ∃ others', Tidy free (s.sysFork t).2 others' := by
  obtain ⟨others', -, T₁⟩ := T.forkMe ht hlt
  have T₂ := T₁.newProcess
  have hres : ((s.forkMe t).objects.make ⟨.PROCESS, 1, false, 0, 0, 0⟩).2.resources
      (s.forkMe t).objects.next =
      ⟨.PROCESS, 1, false, 0, 0, 0⟩ := Function.update_self ..
  have ht' : t ∈ (s.forkMe t).live := by
    rw [State.forkMe_live]
    exact List.mem_cons_of_mem _ ht
  refine ⟨_, T₂.open (p := (s.forkMe t).objects.next) ht' ⟨⟨Nat.lt_succ_self _, ?_⟩,
    ?_⟩ ?_ ?_ ?_⟩
  all_goals
    dsimp only
    rw [hres]
  · nofun
  · exact (by decide : 1 + 1 < 0x100000000)
  · nofun
  · nofun

/-- The directories are not changed when the other slots are closed. -/
theorem closeSlots_same {d : Id} (l : List Nat) (hl : ∀ i ∈ l, 2 ≤ i)
    (hd : d < s.objects.next) (ht : (s.objects.resources d).type = .DIRECTORY) :
    (l.foldl (fun s i => s.closeSlot (t, i)) s).objects.resources d = s.objects.resources d := by
  induction l generalizing s with
  | nil => rfl
  | cons i l ih =>
    have hi := hl i List.mem_cons_self
    have hdir : ∀ r, s.array (t, i) = some r → (s.objects.resources r).type ≠ .DIRECTORY := by
      intro r hr hrt
      have : i = 1 := T.dirs _ r hr hrt
      omega
    have hsame : (s.closeSlot (t, i)).objects.resources d = s.objects.resources d := by
      rw [State.closeSlot]
      rcases hr : s.array (t, i) with _ | r
      · rfl
      · refine Objects.unref_same T.sound.inv.cached hd ?_ (by simp [ht])
        rintro rfl
        exact hdir _ hr ht
    have T' := T.closeSlot (e := (t, i)) fun r hr h => absurd h (hdir r hr)
    obtain ⟨others', M, -⟩ := T.sound.closeSlot (t, i)
    exact (ih T' (fun j hj => hl j (List.mem_cons_of_mem _ hj)) (hd.trans_le M.typed.next)
      (by rwa [hsame])).trans hsame

theorem sysExit (hshared : s.Shared t) (h : s.sysExit t = some s') : Tidy free s' others := by
  obtain ⟨⟨rc, s₁⟩, h₁, rfl⟩ := Option.map_eq_some_iff.mp h
  have T₁ := T.closeAll t
  have T₂ : Tidy free s₁ others := by
    rw [State.closeWorkingDir] at h₁
    split at h₁
    · cases h₁
    next r hr =>
      have T₂ := T₁.use (T₁.sound.live hr)
      dsimp only at h₁
      split at h₁ <;> cases h₁
      · exact T₂
      next hd =>
        refine T₂.closeSlot fun r' hr' ht => ?_
        have hr₀ : s.array (t, 1) = some r' := by rwa [State.closeAll_array] at hr'
        obtain ⟨others', M⟩ := T.sound.closeSlots (t := t) (List.range' 2 (s.n t - 2))
        have hlt := (T.sound.live hr₀).1
        have ht₀ : (s.objects.resources r').type = .DIRECTORY :=
          (M.typed.type r' hlt).symm.trans ht
        have hsame :=
          T.closeSlots_same (t := t) (List.range' 2 (s.n t - 2))
            (fun i hi => (List.mem_range'_1.mp hi).1) hlt ht₀
        intro h1
        refine hshared r' hr₀ ?_
        rw [← hsame]
        exact h1
  exact ⟨⟨T₂.sound.inv, T₂.sound.type, T₂.sound.slot,
    fun t' ht' => T₂.sound.table t' (List.mem_of_mem_erase ht')⟩,
    T₂.others, T₂.plain, T₂.used, T₂.single, T₂.dirs⟩

/-- What one system call does. -/
theorem step {l : Nat × SysCall} (hk : l.2.Keeps s l.1) (h : SysStep s l s') :
    ∃ others', Tidy free s' others' := by
  obtain ⟨t, c⟩ := l
  obtain ⟨ht, h⟩ := h
  obtain ⟨hk, hlt⟩ := hk
  have hone : ∀ p, c.takes s t = [p] → (s.objects.resources p).count + 1 < 0x100000000 := by
    intro p hp
    have := hlt p (hp ▸ List.mem_singleton_self p)
    dsimp only at this
    rwa [hp, List.count_singleton_self] at this
  cases c with
  | «open» root wd =>
    obtain ⟨⟨rc, s₁⟩, h', rfl⟩ := Option.map_eq_some_iff.mp h
    refine ⟨others, T.sysOpen ht hk (fun idx hidx => hone _ ?_) h'⟩
    rw [SysCall.takes, hidx]
    rfl
  | close a0 =>
    cases h
    exact ⟨others, T.close t a0⟩
  | cd path =>
    obtain ⟨⟨rc, s₁⟩, h', rfl⟩ := Option.map_eq_some_iff.mp h
    refine ⟨others, T.sysCd ht hk (fun idx hidx => hone _ ?_) h'⟩
    rw [hidx]
    rfl
  | mkdir path code =>
    obtain ⟨⟨rc, s₁⟩, h', rfl⟩ := Option.map_eq_some_iff.mp h
    exact ⟨others, T.sysMkdir hk h'⟩
  | rm name code =>
    obtain ⟨⟨rc, s₁⟩, h', rfl⟩ := Option.map_eq_some_iff.mp h
    exact ⟨others, T.sysRm hk h'⟩
  | fork =>
    cases h
    refine T.sysFork ht fun x => ?_
    by_cases hx : x ∈ s.forks t (List.range (s.n t))
    · exact hlt x hx
    · rw [List.count_eq_zero.mpr hx]
      exact T.sound.inv.count_lt x
  | execv prog =>
    obtain rfl : prog = none := hk
    cases h
    exact ⟨others, T⟩
  | exit => exact ⟨others, T.sysExit hk h⟩

/-- What is not free is held. -/
theorem reclaimed {boot : Id} (hfree : ∀ r ∈ free, r < boot) (hroot : rootdir < boot) :
    Reclaimed boot s := by
  have I := T.sound.inv
  refine ⟨fun f hb hf ht => ?_, fun b h => Option.eq_none_iff_forall_ne_some.mpr fun p hp => ?_⟩
  · have hpos := T.used f hf fun h => Nat.not_lt.mpr hb (hfree f h)
    obtain ⟨h, hh⟩ := I.exact.exists_of_pos hpos
    cases h with
    | handle g =>
      have hother := I.file g f hh
      rcases ht with ht | ht <;> rw [ht] at hother <;> cases hother
    | place e => exact ⟨e, hh⟩
    | loose k =>
      exfalso
      rcases T.others f (Nat.ne_of_gt (Nat.zero_lt_of_lt hh)) with ⟨rfl, -⟩ | hproc
      · exact Nat.not_lt.mpr hb hroot
      · rcases ht with ht | ht <;> rw [ht] at hproc <;> cases hproc
  · obtain ⟨hlive, htype, hstart⟩ := (I.cache b p).mp hp
    obtain ⟨g, hg⟩ := I.exact.exists_of_pos (T.opened b p hp)
    cases g with
    | handle f => exact h f p hg hstart
    | place e => exact T.sound.type e p hg htype
    | loose k =>
      rcases T.others p (Nat.ne_of_gt (Nat.zero_lt_of_lt hg)) with ⟨-, hdir⟩ | hproc
      · rw [htype] at hdir
        cases hdir
      · rw [htype] at hproc
        cases hproc

end Tidy

/-! ## The runs -/

/-- The number of the first object that a system call makes. -/
def boot (root shell : Nat) : Id := (booted root shell).objects.next

theorem closeAll_next (t : Nat) : (s.closeAll t).objects.next = s.objects.next := by
  refine List.foldlRecOn _ _ (motive := fun s' : State => s'.objects.next = s.objects.next) rfl
    fun s' hs' i _ => ?_
  exact (Objects.unref_next ..).trans hs'

/-- The reference with which the root directory is never deleted. -/
theorem Tidy.refRootdir (T : Tidy free s others) (hr : s.May rootdir)
    (hdir : (s.objects.resources rootdir).type = .DIRECTORY)
    (hlt : (s.objects.resources rootdir).count + 1 < 0x100000000) :
    Tidy free { s with objects := s.objects.ref rootdir }
    (Function.update others rootdir (others rootdir + 1)) := by
  have K := Objects.ref_typed s.objects rootdir
  have hres : ∀ x, (s.objects.ref rootdir).resources x = { s.objects.resources x with
      count := if x = rootdir then (s.objects.resources rootdir).count + 1
        else (s.objects.resources x).count } := by
    intro x
    rw [Objects.ref_resources, Nat.mod_eq_of_lt hlt]
  refine ⟨T.sound.ref hr hlt, fun r h => ?_, T.plain_of K, fun r h hf => ?_, fun f h ht => ?_,
    T.dirs_of K fun _ _ => .inl⟩
  · dsimp only
    rw [hres]
    by_cases hne : r = rootdir
    · rw [hne]
      exact .inl ⟨rfl, hdir⟩
    · rw [Function.update_of_ne hne] at h
      exact T.others r h
  · rw [Objects.Live, hres] at h
    rw [hres]
    dsimp only
    split
    next => exact Nat.succ_pos _
    next => exact T.used r h hf
  · rw [Objects.Live, hres] at h
    rw [hres] at ht ⊢
    dsimp only
    rw [if_neg]
    · exact T.single f h ht
    · rintro rfl
      rw [hdir] at ht
      cases ht

theorem Tidy.openFile_fits (T : Tidy free s others)
    (h : ∀ p, s.objects.openFiles idx = some p →
      (s.objects.resources p).count + 1 < 0x100000000) :
    (s.objects.resources (s.objects.openFile idx).1).count + 1 < 0x100000000 := by
  rcases hb : s.objects.openFiles idx with _ | p
  · rw [Objects.openFile_none hb, T.sound.inv.count_next]
    decide
  · rw [Objects.openFile_some hb]
    exact h p hb

theorem started_tidy (root : Nat) : ∃ others, Tidy [] (started root) others := by
  have T₀ : Tidy [] State.init fun _ => 0 := by
    refine ⟨init_sound, fun r h => absurd rfl h, nofun, fun r h => ?_, fun f h => ?_, nofun⟩
    · exact absurd h.1 (Nat.not_lt_zero _)
    · exact absurd h.1 (Nat.not_lt_zero _)
  have hone : 0 + 1 < 0x100000000 := by decide
  have T₁ := T₀.newHandle (b := root)
      (x := ⟨.DIRECTORY, 0, false, 0, 0, 0⟩) hone ⟨.inr rfl, rfl⟩ rfl rfl
  have T₂ := T₁.newProcess.newTable (n := 100) (by decide)
  have T₃ := Tidy.addWorkingDir (t := 0)
      (d := rootdir) T₂ List.mem_cons_self ⟨(by decide : 1 < 3), rfl⟩ rfl rfl nofun
  exact ⟨_, T₃.refRootdir ⟨⟨(by decide : 1 < 3), rfl⟩, nofun⟩ rfl
    (by decide : 1 + 1 < 0x100000000)⟩

theorem started_objects (root : Nat) : (started root).objects.next = 3 ∧
    (started root).objects.openFiles = Function.update (fun _ => none) root (some 0) ∧
    ((started root).objects.resources 0).count = 1 := ⟨rfl, rfl, rfl⟩

/-- The file of the shell is the only object without a reference. -/
theorem booted_tidy (root shell : Nat) :
    ∃ others, Tidy [boot root shell - 1] (booted root shell) others ∧
    rootdir < boot root shell - 1 := by
  obtain ⟨others, T⟩ := started_tidy root
  obtain ⟨hnext, hopen, hcount⟩ := started_objects root
  have hfit : ((started root).objects.resources ((started root).objects.openFile shell).1).count +
      1 < 0x100000000 := by
    refine T.openFile_fits fun p hp => ?_
    rw [hopen, Function.update_apply] at hp
    split at hp
    · cases hp
      rw [hcount]
      decide
    · cases hp
  have T' := T.newHandle (b := shell)
      (x := ⟨.FILE, 0, false, ((started root).objects.openFile shell).1, 0, 0⟩) hfit
    ⟨.inl rfl, rfl⟩ rfl rfl
  obtain ⟨K, -⟩ := T.sound.inv.openFile_kept (b := shell)
  have hboot : boot root shell = ((started root).objects.openFile shell).2.next + 1 := by
    rw [boot, booted, State.sysExecv, closeAll_next]
    rfl
  rw [hboot, Nat.add_sub_cancel]
  refine ⟨others, T'.closeAll 0, ?_⟩
  have hle := K.next
  rw [hnext] at hle
  exact Nat.lt_of_lt_of_le (by decide) hle

/-- In every run whose system calls take the paths that keep no object, what they make is
reclaimed. -/
theorem open_files_reclaimed {root shell : Nat} {ls : List (Nat × SysCall)}
    (h : Run (Run.Within SysStep fun s l => l.2.Keeps s l.1) (booted root shell) ls s) :
    Reclaimed (boot root shell) s := by
  obtain ⟨others₀, T₀, hroot⟩ := booted_tidy root shell
  obtain ⟨others, T⟩ := h.inv_of (I := fun s => ∃ others, Tidy [boot root shell - 1] s others)
    (fun _ _ _ ⟨_, T⟩ hk h => T.step hk h) ⟨others₀, T₀⟩
  refine T.reclaimed (fun r hr => ?_) (hroot.trans_le (Nat.sub_le _ _))
  rw [List.mem_singleton.mp hr]
  exact Nat.sub_one_lt_of_lt (hroot.trans_le (Nat.sub_le _ _))

theorem closeAll_empty (h : ∀ i, 2 ≤ i → s.array (t, i) = none) : s.closeAll t = s := by
  rw [State.closeAll]
  refine List.foldlRecOn _ _ (motive := fun s' : State => s' = s) rfl fun s' hs' i hi => ?_
  have hnone := h i (List.mem_range'_1.mp hi).1
  rw [hs', State.closeSlot, Function.update_eq_self_iff.mpr hnone.symm, hnone]
  rfl

/-- The table of the first program is empty but for the working directory. -/
theorem booted_eq (root shell : Nat) : booted root shell = ((started root).lookupFile shell).2 := by
  refine closeAll_empty fun i hi => ?_
  have harray : ((started root).lookupFile shell).2.array = Function.update (fun _ => none) (0, 1)
      (some rootdir) := rfl
  rw [harray, Function.update_of_ne]
  intro h
  have := (Prod.ext_iff.mp h).2
  omega

/-- The first program opens a file. -/
def openedAgain : State := ((booted 2 5).lookupFile 7).2.open 0 ((booted 2 5).lookupFile 7).1 |>.2

theorem open_files_reclaimed_closed : Reclaimed (boot 2 5) (openedAgain.close 0 2).2 := by
  have hlive : 0 ∈ (booted 2 5).live ∧ 0 ∈ openedAgain.live := by
    rw [openedAgain, booted_eq]
    decide
  have hopen : SysStep (booted 2 5) (0, .open (some 7) none) openedAgain := ⟨hlive.1, rfl⟩
  have hclose : SysStep openedAgain (0, .close 2) (openedAgain.close 0 2).2 := ⟨hlive.2, rfl⟩
  have hkeeps : SysCall.Keeps (booted 2 5) 0 (.open (some 7) none) := by
    rw [booted_eq]
    have hfree : (((started 2).lookupFile 5).2).freeSlot 0 ≠ none := by decide
    exact ⟨fun _ => hfree, by decide⟩
  have h₁ : Run.Within SysStep (fun s l => l.2.Keeps s l.1) (booted 2 5)
      (0, .open (some 7) none) openedAgain :=
    ⟨hopen, hkeeps⟩
  have h₂ : Run.Within SysStep (fun s l => l.2.Keeps s l.1) openedAgain (0, .close 2)
      (openedAgain.close 0 2).2 :=
    ⟨hclose, trivial, nofun⟩
  exact open_files_reclaimed ((Run.single h₁).snoc h₂)

/-- A file whose name was removed stays open. -/
theorem open_file_kept : ¬∀ root shell ls s, Run SysStep (booted root shell) ls s →
    Reclaimed (boot root shell) s := by
  intro h
  obtain ⟨s₁, h₁⟩ : ∃ s₁, (booted 2 5).workingDir 0 = some s₁ := by
    rw [booted_eq]
    exact Option.isSome_iff_exists.mp (by decide)
  have hstep :
      SysStep (booted 2 5) (0, .rm (some (some 9)) 0)
      { s₁ with objects := (s₁.objects.openFile 9).2 } := by
    refine ⟨?_, ?_⟩
    · rw [booted_eq]
      decide
    · rw [SysCall.run, State.sysRm, h₁]
      rfl
  obtain ⟨r, hr, rfl⟩ := workingDir_eq h₁
  have hclosed := (h 2 5 _ _ (.single hstep)).closed 9
  rw [booted_eq] at hr hclosed
  obtain rfl : rootdir = r := Option.some.inj hr
  have hhandles : ∀ f < 6, let o :=
    ((((started 2).lookupFile 5).2.objects.use rootdir).openFile 9).2
      o.Handle f (o.resources f).openFile →
        (o.resources (o.resources f).openFile).start ≠ 9 := by
    decide
  have hnull := hclosed fun f p hf => by
    obtain ⟨hlive, htype, rfl⟩ := hf
    exact hhandles f hlive.1 ⟨hlive, htype, rfl⟩
  cases hnull

end K439.Handles.Tables
