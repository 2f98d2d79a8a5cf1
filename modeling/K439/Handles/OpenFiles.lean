import K439.Handles.Kept
import K439.Lib.Run

/-!
# One open file for a block

`openFile` and `closeFile` under the mutex, `Fat439File::forkMe`, which takes its reference without
it, and the destructors, by any number of processes in any order. A process may give away a
reference that it got from `openFile`, as `remove` does. `one_open_file` says what then holds as
long as no count is full when a reference is taken.
-/

namespace K439.Handles.OpenFiles

open Exit (ResourceType)

/-- Where a process stands. -/
inductive Pc
  | idle
  /-- it has `p` from `openFile` -/
  | opened (p : Id)
  /-- in `forkMe` of the file `f`, with its reference to the `openFile` of `f` -/
  | forking (f p : Id)
  /-- before `closeFile(p)` in the destructor of a file -/
  | closing (p : Id)
  deriving DecidableEq

structure State where
  objects : Objects
  pc : Nat → Pc

/-- What a process does next. -/
inductive Op
  | openFile (start : Nat)
  | newFile
  | newDirectory
  /-- the reference is never dropped -/
  | keep
  /-- a reference to a file or directory is taken, or dropped -/
  | ref (f : Id)
  | unref (f : Id)
  | forkMe (f : Id)
  | clone
  | closeFile

def State.init : State :=
  ⟨⟨fun _ => ⟨.OTHER, 0, false, 0, 0, 0⟩, 0, fun _ => none, []⟩, fun _ => .idle⟩

def State.next (s : State) (objects : Objects) (i : Nat) (pc : Pc) : State :=
  ⟨objects, Function.update s.pc i pc⟩

variable {s s' : State}

/-- The object is a file or a directory. -/
def State.File (s : State) (f : Id) : Prop :=
  s.objects.Live f ∧
    ((s.objects.resources f).type = .FILE ∨ (s.objects.resources f).type = .DIRECTORY)

/-- A step of the process `i`. Who drops a reference has one, and the table with the file that is
being forked keeps its own. -/
inductive Step (s : State) : Nat × Op → State → Prop
  | openFile : s.pc i = .idle →
      Step s (i, .openFile b) (s.next (s.objects.openFile b).2 i (.opened (s.objects.openFile b).1))
  | newFile : s.pc i = .opened p → Step s (i, .newFile) (s.next (s.objects.newFile p).2 i .idle)
  | newDirectory : s.pc i = .opened p →
      Step s (i, .newDirectory) (s.next (s.objects.newDirectory p).2 i .idle)
  | keep : s.pc i = .opened p → Step s (i, .keep) (s.next s.objects i .idle)
  | ref : s.pc i = .idle → s.File f → Step s (i, .ref f) (s.next (s.objects.ref f) i .idle)
  | unref : s.pc i = .idle → s.File f → 0 < (s.objects.resources f).count →
      ((s.objects.resources f).count = 1 → ∀ j p, s.pc j ≠ .forking f p) →
      Step s (i, .unref f) (s.next (s.objects.release f).2 i
        (if (s.objects.release f).1 ∧ (s.objects.resources f).type = .FILE then
          .closing (s.objects.resources f).openFile else .idle))
  | forkMe : s.pc i = .idle → s.File f → (s.objects.resources f).type = .FILE →
      Step s (i, .forkMe f) (s.next ((s.objects.use f).ref (s.objects.resources f).openFile) i
        (.forking f (s.objects.resources f).openFile))
  | clone : s.pc i = .forking f p → Step s (i, .clone) (s.next (s.objects.cloneFile f).2 i .idle)
  | closeFile : s.pc i = .opened p ∨ s.pc i = .closing p →
      Step s (i, .closeFile) (s.next (s.objects.closeFile p) i .idle)

/-- The object that a step takes a reference to. -/
def Op.takes (s : State) : Op → Option Id
  | .openFile b => some (s.objects.openFile b).1
  | .ref f => some f
  | .forkMe f => some (s.objects.resources f).openFile
  | _ => none

/-- No count wraps. -/
def Fits (s : State) (l : Nat × Op) : Prop :=
  ∀ r ∈ l.2.takes s, (s.objects.resources r).count + 1 < 0x100000000

/-- There is one `OpenFile` for a block, and it is live while an object refers to it. -/
structure OneOpenFile (s : Objects) : Prop where
  cached : ∀ p, s.Live p → (s.resources p).type = .OTHER →
    s.openFiles (s.resources p).start = some p
  entry : ∀ b p, s.openFiles b = some p → s.Live p ∧ (s.resources p).type = .OTHER ∧
    (s.resources p).start = b
  unique : ∀ p q, s.Live p → (s.resources p).type = .OTHER → s.Live q →
    (s.resources q).type = .OTHER →
    (s.resources p).start = (s.resources q).start → p = q
  same : ∀ f g p q, s.Handle f p → s.Handle g q →
    (s.resources p).start = (s.resources q).start → p = q
  counted : ∀ p (handles : Finset Id), (∀ f ∈ handles, s.Handle f p) →
    handles.card ≤ (s.resources p).count
  live : ∀ f p, s.Handle f p → s.Live p ∧ .delete p ∉ s.log

/-! ## The steps -/

/-- The reference of a process. -/
def Pc.held : Pc → Option Id
  | idle => none
  | opened p => some p
  | forking _ p => some p
  | closing p => some p

def State.held (s : State) (i : Nat) : Option Id := (s.pc i).held

structure Sound (s : State) : Prop where
  inv : ∃ others, Inv s.objects s.held others
  type : ∀ i p, s.held i = some p → (s.objects.resources p).type = .OTHER
  forking : ∀ i f p, s.pc i = .forking f p → s.objects.Live f ∧
    (s.objects.resources f).type = .FILE ∧ (s.objects.resources f).openFile = p

variable {o : Objects} {i : Nat} {pc : Pc} {l : Nat × Op} {f p b : Id}

theorem State.next_pc : (s.next o i pc).pc i = pc := Function.update_self ..

theorem State.held_next : (s.next o i pc).held = Function.update s.held i pc.held := by
  funext j
  simp only [held, next, Function.update_apply]
  split <;> rfl

namespace Sound

variable (S : Sound s)
include S

/-- The process `i` goes on at `pc` with the objects `o`. -/
theorem next (hinv : ∃ others, Inv o (Function.update s.held i pc.held) others)
    (T : Typed s.objects o) (hlive : ∀ j f p, s.pc j = .forking f p → o.Live f)
    (htype : ∀ p, pc.held = some p → (o.resources p).type = .OTHER)
    (hfork : ∀ f p, pc = .forking f p → o.Live f ∧ (o.resources f).type = .FILE ∧
      (o.resources f).openFile = p) :
    Sound (s.next o i pc) := by
  refine ⟨?_, fun j q hj => ?_, fun j f q hj => ?_⟩
  · rw [State.held_next]
    exact hinv
  · rw [State.held_next, Function.update_apply] at hj
    split at hj
    · exact htype q hj
    · obtain ⟨others, I⟩ := S.inv
      exact (T.type q (I.live (.place j) q hj).1).trans (S.type j q hj)
  · simp only [State.next, Function.update_apply] at hj
    split at hj
    · exact hfork f q hj
    · obtain ⟨hl, ht, hq⟩ := S.forking j f q hj
      exact ⟨hlive j f q hj, (T.type f hl.1).trans ht, (T.openFile f hl.1).trans hq⟩

/-- The process `i` is done. -/
theorem next_idle (hinv : ∃ others, Inv o (Function.update s.held i none) others)
    (T : Typed s.objects o) (hlive : ∀ j f p, s.pc j = .forking f p → o.Live f) :
    Sound (s.next o i .idle) :=
  S.next hinv T hlive (fun _ h => by cases h) (fun _ _ h => by cases h)

/-- The files that are being forked are not changed. -/
theorem live (K : Kept s.objects o) (j : Nat) (f p : Id) (h : s.pc j = .forking f p) :
    o.Live f := by
  obtain ⟨hl, ht, -⟩ := S.forking j f p h
  exact K.live hl (by simp [ht])

/-- A process without a reference takes one to `p`. -/
theorem fill {others : Id → Nat} {q : Id} (hq : pc.held = some q)
    (h : Inv o (Function.update s.held i (some q)) others) (K : Kept s.objects o)
    (htype : (o.resources q).type = .OTHER) (hfork : ∀ f p, pc = .forking f p → o.Live f ∧
      (o.resources f).type = .FILE ∧ (o.resources f).openFile = p) :
    Sound (s.next o i pc) := by
  refine S.next ⟨others, ?_⟩ K.toTyped (S.live K) (fun q' hq' => ?_) hfork
  · rw [hq]
    exact h
  · obtain rfl := Option.some.inj (hq.symm.trans hq')
    exact htype

/-- A process gives up its reference. -/
theorem clear (K : Kept s.objects o) {others : Id → Nat}
    (h : Inv o (Function.update s.held i none) others) : Sound (s.next o i .idle) :=
  S.next_idle ⟨others, h⟩ K.toTyped (S.live K)

/-- Only loose references refer to files and directories. -/
theorem loose {others : Id → Nat} (I : Inv s.objects s.held others) (hf : s.File f)
    (hpos : 0 < (s.objects.resources f).count) : 0 < others f := by
  have hother : (s.objects.resources f).type ≠ .OTHER := by
    rcases hf.2 with h | h <;> simp [h]
  obtain ⟨h, hh⟩ := I.exact.exists_of_pos hpos
  cases h with
  | handle g => exact absurd (I.file g f hh) hother
  | place j => exact absurd (S.type j f hh) hother
  | loose k => exact Nat.zero_lt_of_lt hh

/-- The last reference to a file goes to the process that closes it. -/
theorem unref (hi : s.pc i = .idle) (hf : s.File f) (hpos : 0 < (s.objects.resources f).count)
    (hlast : (s.objects.resources f).count = 1 → ∀ j p, s.pc j ≠ .forking f p) :
    Sound (s.next (s.objects.release f).2 i
      (if (s.objects.release f).1 ∧ (s.objects.resources f).type = .FILE then
        .closing (s.objects.resources f).openFile else .idle)) := by
  obtain ⟨others, I⟩ := S.inv
  have hheld : s.held i = none := by rw [State.held, hi]; rfl
  have hlive : ∀ j g p, s.pc j = .forking g p → (s.objects.release f).2.Live g := by
    intro j g p hg
    refine Objects.release_live (S.forking j g p hg).1 ?_
    by_cases h1 : (s.objects.resources f).count = 1
    · left
      rintro rfl
      exact hlast h1 j p hg
    · exact .inr h1
  obtain ⟨others', rfl, -⟩ := Holds.pred (S.loose I hf hpos)
  have ha : Holds s.objects s.held (Function.update others' f (others' f + 1))
      (.loose (others' f)) f :=
    (Holds.more ..).mpr (.inr ⟨rfl, rfl⟩)
  have hkeep : Function.update s.held i none = s.held := by rw [← hheld, Function.update_eq_self]
  have T := Objects.release_typed s.objects f
  by_cases h1 : (s.objects.resources f).count = 1
  · obtain ⟨s₁, hs₁, I₁, rfl⟩ := I.release_last ha h1 Holds.less
    rw [hs₁] at T hlive ⊢
    have hf₁ : ((s.objects.use f).setCount f 0).Handle f (s.objects.resources f).openFile :=
      Objects.setCount_handle.mpr ⟨hf.1, hf.2, rfl⟩
    have I₂ := I₁.delete_loose hf₁.1 (by rw [Objects.setCount_resources]; exact if_pos rfl)
        hf₁
    by_cases ht : (s.objects.resources f).type = .FILE
    · rw [if_pos ⟨rfl, ht⟩]
      have I₃ := I₂.move (b := .place i) ((Holds.more ..).mpr (.inr ⟨rfl, rfl⟩))
          (Holds.not_place hheld) fun c y =>
        (Holds.fill hheld c y).trans (or_congr (Holds.less c y) Iff.rfl)
      refine S.next ⟨_, I₃⟩ T hlive (fun p hp => ?_) fun _ _ h => by cases h
      obtain rfl := Option.some.inj hp
      rw [Objects.delete_resources]
      exact I₁.file _ _ hf₁
    · rw [if_neg fun h => ht h.2]
      rw [← hkeep] at I₂
      exact S.next_idle ⟨_, I₂⟩ T hlive
  · obtain ⟨hs₁, I₁⟩ := I.release ha h1 Holds.less
    rw [hs₁, if_neg fun h => Bool.false_ne_true h.1]
    refine S.next_idle ⟨others', ?_⟩ T hlive
    rw [hkeep]
    exact I₁

/-- What one step does. -/
theorem step (hl : Fits s l) (h : Step s l s') : Sound s' := by
  obtain ⟨others, I⟩ := S.inv
  cases h with
  | @openFile i b hi =>
    have hheld : s.held i = none := by rw [State.held, hi]; rfl
    obtain ⟨K, ht, -⟩ := I.openFile_kept (b := b)
    refine S.fill rfl (I.openFile (hl _ rfl) (Holds.not_place hheld) (Holds.fill hheld)) K ht fun _
      _ h => ?_
    cases h
  | @newFile i p hi =>
    have hheld : s.held i = some p := by rw [State.held, hi]; rfl
    exact S.clear (Objects.newFile_kept ..)
      (I.make_handle ⟨.inl rfl, rfl⟩ rfl rfl (a := .place i) hheld (S.type i p hheld)
        (Holds.clear hheld))
  | @newDirectory i p hi =>
    have hheld : s.held i = some p := by rw [State.held, hi]; rfl
    exact S.clear (Objects.newDirectory_kept ..)
      (I.make_handle ⟨.inr rfl, rfl⟩ rfl rfl (a := .place i) hheld (S.type i p hheld)
        (Holds.clear hheld))
  | @keep i p hi =>
    have hheld : s.held i = some p := by rw [State.held, hi]; rfl
    exact S.clear Kept.refl (I.move (a := .place i) hheld Holds.not_more fun c y =>
      (Holds.more c y).trans (or_congr (Holds.clear hheld c y) Iff.rfl))
  | @ref i f hi hf =>
    have hheld : s.held i = none := by rw [State.held, hi]; rfl
    have hlive : ∀ j g p, s.pc j = .forking g p → (s.objects.ref f).Live g := by
      intro j g p hg
      rw [Objects.Live, Objects.ref_resources]
      exact (S.forking j g p hg).1
    refine S.next_idle ⟨Function.update others f (others f + 1), ?_⟩ (Objects.ref_typed ..)
      hlive
    rw [← hheld, Function.update_eq_self]
    exact I.ref hf.1 (hl _ rfl) Holds.not_more Holds.more
  | @unref i f hi hf hpos hlast => exact S.unref hi hf hpos hlast
  | @forkMe i f hi hf ht =>
    have hheld : s.held i = none := by rw [State.held, hi]; rfl
    have hp : s.objects.Handle f (s.objects.resources f).openFile := ⟨hf.1, .inl ht, rfl⟩
    have htype := I.file _ _ hp
    have K : Kept s.objects ((s.objects.use f).ref (s.objects.resources f).openFile) :=
      (Objects.use_kept ..).trans (Objects.ref_kept htype)
    refine S.fill rfl ((I.use hf.1).ref (I.live (.handle f) _ hp) (hl _ rfl) (Holds.not_place hheld)
      (Holds.fill hheld)) K
      ?_ ?_
    · rw [Objects.ref_resources]
      exact htype
    · rintro g q hg
      cases hg
      refine ⟨K.live hf.1 (by simp [ht]), ?_⟩
      rw [K.same f hf.1.1 (by simp [ht])]
      exact ⟨ht, rfl⟩
  | @clone i f p hi =>
    have hheld : s.held i = some p := by rw [State.held, hi]; rfl
    obtain ⟨hf, -, hp⟩ := S.forking i f p hi
    exact S.clear (Objects.cloneFile_kept hf)
      (I.cloneFile hf (a := .place i) hheld hp (S.type i p hheld) (Holds.clear hheld))
  | @closeFile i p hi =>
    have hheld : s.held i = some p := by
      rcases hi with hi | hi <;> rw [State.held, hi] <;> rfl
    exact S.clear I.closeFile_kept (I.closeFile (a := .place i) hheld (S.type i p hheld)
      (Holds.clear hheld))

end Sound

theorem init_sound : Sound State.init :=
  ⟨⟨fun _ => 0, Inv.init fun _ => rfl⟩, fun _ _ h => (by cases h),
    fun _ _ _ h => (by cases h)⟩

/-! ## The runs -/

theorem Sound.oneOpenFile (S : Sound s) : OneOpenFile s.objects := by
  obtain ⟨others, I⟩ := S.inv
  have hcached : ∀ p, s.objects.Live p → (s.objects.resources p).type = .OTHER →
      s.objects.openFiles (s.objects.resources p).start = some p :=
        fun p hp ht => (I.cache _ p).mpr ⟨hp, ht, rfl⟩
  have hunique : ∀ p q, s.objects.Live p → (s.objects.resources p).type = .OTHER →
      s.objects.Live q →
      (s.objects.resources q).type = .OTHER →
        (s.objects.resources p).start = (s.objects.resources q).start → p = q := by
    intro p q hp htp hq htq heq
    have := hcached p hp htp
    rw [heq, hcached q hq htq] at this
    exact (Option.some.inj this).symm
  have hlive : ∀ f p, s.objects.Handle f p → s.objects.Live p :=
    fun f p h => I.live (.handle f) p h
  refine ⟨hcached, fun b p h => (I.cache b p).mp h, hunique, fun f g p q hf hg heq => ?_,
    fun p handles h => ?_,
    fun f p hf => ⟨hlive f p hf, I.not_logged (hlive f p hf)⟩⟩
  · exact hunique p q (hlive f p hf) (I.file f p hf) (hlive g q hg) (I.file g q hg) heq
  · obtain ⟨t, ht, hcard⟩ := I.exact p
    refine le_of_le_of_eq ?_ hcard
    refine Finset.card_le_card_of_injOn Holder.handle (fun f hf => ?_) fun f _ g _ h =>
      Holder.handle.inj h
    exact (ht _).mpr (h f hf)

/-- In every run in which no reference is taken to an object with a full count, there is one
`OpenFile` for a block. -/
theorem one_open_file {ls : List (Nat × Op)} (h : Run (Run.Within Step Fits) State.init ls s) :
    OneOpenFile s.objects ∧ Clean s.objects.log := by
  have S := h.inv_of (fun _ _ _ S hl h => S.step hl h) init_sound
  obtain ⟨others, I⟩ := S.inv
  exact ⟨S.oneOpenFile, I.clean⟩

/-- A process has opened the file at block 5 and destroys it, while another has it open. -/
def closed : State :=
  let s := State.init.next (State.init.objects.openFile 5).2 0 (.opened 0)
  let s := s.next (s.objects.openFile 5).2 1 (.opened 0)
  let s := s.next (s.objects.newFile 0).2 0 .idle
  let s := s.next (s.objects.newFile 0).2 1 .idle
  let s := s.next (s.objects.ref 1) 0 .idle
  let s := s.next (s.objects.release 1).2 0 (.closing 0)
  s.next (s.objects.closeFile 0) 0 .idle

theorem one_open_file_closed : OneOpenFile closed.objects ∧ Clean closed.objects.log := by
  have hfile : ∀ s : State, s.objects.Live 1 → (s.objects.resources 1).type = .FILE →
      s.File 1 := fun s h ht => ⟨h, .inl ht⟩
  have hrun : Run (Run.Within Step Fits) State.init [(0, .openFile 5), (1, .openFile 5),
      (0, .newFile), (1, .newFile), (0, .ref 1), (0, .unref 1), (0, .closeFile)] closed := by
    refine .cons ⟨.openFile rfl, fun r hr => by cases hr; decide⟩ ?_
    refine .cons ⟨.openFile rfl, fun r hr => by cases hr; decide⟩ ?_
    refine .cons ⟨.newFile (p := 0) rfl, nofun⟩ ?_
    refine .cons ⟨.newFile (p := 0) rfl, nofun⟩ ?_
    refine .cons ⟨.ref rfl (hfile _ (by decide) rfl), fun r hr => by cases hr; decide⟩ ?_
    refine .cons ⟨.unref rfl (hfile _ (by decide) rfl) (by decide) (fun _ j p h => ?_), nofun⟩
      ?_
    · simp only [State.next, Function.update_apply] at h
      split_ifs at h
      cases h
    · exact .single ⟨.closeFile (p := 0) (.inr rfl), nofun⟩
  exact one_open_file hrun

/-- A process that only opens the file of a directory. -/
theorem leak (n : Nat) :
    ∃ ls s, Run Step State.init ls s ∧ s.pc 0 = .idle ∧ s.objects.openFiles 0 = some 0 ∧
    s.objects.Handle 1 0 ∧ (s.objects.resources 0).count = (n + 1) % 0x100000000 := by
  induction n with
  | zero =>
    refine ⟨[(0, .openFile 0), (0, .newDirectory)], _,
      (Run.single (.openFile rfl)).snoc (.newDirectory (p := 0) rfl), ?_⟩
    decide
  | succ n ih =>
    obtain ⟨ls, s, hr, hpc, hopen, hf, hcount⟩ := ih
    have h₁ : Step s (0, .openFile 0) (s.next (s.objects.ref 0) 0 (.opened 0)) := by
      have := Step.openFile (s := s) (b := 0) hpc
      rwa [Objects.openFile_some hopen] at this
    refine ⟨_, _, (hr.snoc h₁).snoc (.keep (p := 0) State.next_pc), State.next_pc, hopen,
      Objects.ref_handle.mpr hf, ?_⟩
    change ((s.objects.ref 0).resources 0).count = _
    rw [Objects.ref_resources]
    simp only [if_true]
    omega

/-- A count wraps. -/
theorem open_file_wraps : ¬∀ ls s, Run Step State.init ls s → OneOpenFile s.objects := by
  intro h
  obtain ⟨ls, s, hr, -, -, hf, hcount⟩ := leak 0xffffffff
  have hcard := (h ls s hr).counted 0 {1} fun f hm => by
    rw [Finset.mem_singleton.mp hm]
    exact hf
  rw [hcount, Finset.card_singleton] at hcard
  exact absurd hcard (by decide)

end K439.Handles.OpenFiles
