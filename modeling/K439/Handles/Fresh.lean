import K439.Handles.Counts

/-!
# New objects

What `openFile`, `new` and `forkMe` do to the references.
-/

namespace K439.Handles

open Exit (ResourceType)

variable {E : Type} {s : Objects} {place place' : E → Option Id} {others others' : Id → Nat}
  {r p f b : Id}
  {x : Resource}

namespace Objects

@[simp] theorem make_fst : (s.make x).1 = s.next := rfl
@[simp] theorem make_next : (s.make x).2.next = s.next + 1 := rfl
@[simp] theorem make_openFiles : (s.make x).2.openFiles = s.openFiles := rfl
@[simp] theorem make_log : (s.make x).2.log = s.log := rfl

@[simp] theorem make_resources (y : Id) : (s.make x).2.resources y = if y = s.next then x
    else s.resources y :=
  Function.update_apply ..

/-- `new OpenFile(this, start)` -/
def newOpenFile (start : Nat) : Resource :=
  { type := .OTHER, count := 0, deleted := false, openFile := 0, start := start, offset := 0 }

/-- The state with a new `OpenFile` in `openFiles`. -/
def addOpenFile (s : Objects) (b : Nat) : Objects :=
  { (s.make (newOpenFile b)).2 with openFiles := Function.update s.openFiles b (some s.next) }

theorem openFile_none (hb : s.openFiles b = none) :
    s.openFile b = (s.next, (s.addOpenFile b).ref s.next) := by
  simp only [openFile, hb]
  rfl

theorem openFile_some (hb : s.openFiles b = some p) : s.openFile b = (p, s.ref p) := by
  simp only [openFile, hb]

/-- The clone of a `File`, with a count of zero. -/
def clone (s : Objects) (f : Id) : Resource :=
  { type := .FILE, count := 0, deleted := false, openFile := (s.resources f).openFile, start := 0
    offset := (s.resources f).offset }

theorem not_live_next : ¬s.Live s.next := fun h => Nat.lt_irrefl _ h.1

theorem Live.ne_next (h : s.Live r) : r ≠ s.next := Nat.ne_of_lt h.1

theorem make_live (hd : x.deleted = false) : (s.make x).2.Live r ↔ s.Live r ∨ r = s.next := by
  rw [Live, Live, make_resources, make_next, Nat.lt_succ_iff_lt_or_eq]
  by_cases h : r = s.next
  · simp [h, hd]
  · simp [h]

theorem make_handle (hd : x.deleted = false) : (s.make x).2.Handle f p ↔
    s.Handle f p ∨ f = s.next ∧ (x.type = .FILE ∨ x.type = .DIRECTORY) ∧
    x.openFile = p := by
  rw [Handle, Handle, make_live hd, make_resources]
  by_cases h : f = s.next
  · simp [h, not_live_next]
  · simp [h]

theorem cloneFile_eq (hf : s.Live f) : s.cloneFile f =
    (s.next, ((((s.use (s.resources f).openFile).make (s.clone f)).2.use f).setCount s.next
      (s.resources f).count)) := by
  simp [cloneFile, newFile, setCount, make, use, clone, hf.ne_next]

theorem addOpenFile_handle : (s.addOpenFile b).Handle f p ↔ s.Handle f p :=
  (make_handle rfl).trans (or_iff_left fun h => by simp [newOpenFile] at h)

end Objects

namespace Inv

variable (I : Inv s place others)
include I

/-- Nobody refers to an object that does not exist. -/
theorem not_holds_next (h : Holder E) : ¬Holds s place others h s.next :=
  fun hr => Objects.not_live_next (I.live h _ hr)

theorem count_next : (s.resources s.next).count = 0 := I.exact.eq_zero I.not_holds_next

/-- The new object `x`, with a count of zero. -/
theorem make {o : Nat → Option Id} (hd : x.deleted = false) (h0 : x.count = 0)
    (hfile : x.type = .FILE ∨ x.type = .DIRECTORY → s.Live x.openFile ∧
      (s.resources x.openFile).type =
    .OTHER) (hcache : ∀ b p, o b = some p ↔ s.openFiles b = some p ∨ p = s.next ∧
      x.type = .OTHER ∧
    x.start = b)
    (hexact : RefCounted (Holds (s.make x).2 place' others') fun r => (s.resources r).count)
    (hlive : ∀ h r, Holds (s.make x).2 place' others' h r → s.Live r) :
    Inv { (s.make x).2 with openFiles := o } place' others' := by
  refine ⟨hexact.congr (Holds.congr fun _ _ => Iff.rfl) fun r => ?_, fun h r hr => ?_,
    fun f p hf => ?_, fun b p => ?_,
    fun r => ?_, I.clean, fun r => ?_⟩
  · rw [Objects.make_resources]
    split
    next h => rw [h, h0, I.count_next]
    next => rfl
  · exact (Objects.make_live hd).mpr
      (.inl (hlive h r ((Holds.congr (fun _ _ => Iff.rfl) h r).mp hr)))
  · have hp : s.Live p ∧ (s.resources p).type = .OTHER := by
      rcases (Objects.make_handle hd).mp hf with hf | ⟨-, ht, rfl⟩
      · exact ⟨I.live (.handle f) p hf, I.file f p hf⟩
      · exact hfile ht
    rw [Objects.make_resources, if_neg hp.1.ne_next]
    exact hp.2
  · change o b = some p ↔ (s.make x).2.Live p ∧ ((s.make x).2.resources p).type = _ ∧
      ((s.make x).2.resources p).start = b
    rw [hcache, I.cache, Objects.make_live hd, Objects.make_resources]
    by_cases h : p = s.next
    · simp [h, Objects.not_live_next]
    · simp [h]
  · rw [Objects.make_resources]
    split
    · rw [h0]
      decide
    · exact I.count_lt r
  · change _ ∈ s.log ↔ r < s.next + 1 ∧ _
    rw [I.logged, Objects.make_resources, Nat.lt_succ_iff_lt_or_eq]
    by_cases h : r = s.next
    · simp [h, hd]
    · simp [h]

/-- An object that is neither a handle nor an `OpenFile`. -/
theorem make_plain (hd : x.deleted = false) (h0 : x.count = 0)
    (htype : x.type ≠ .OTHER ∧ x.type ≠ .FILE ∧ x.type ≠ .DIRECTORY) :
    Inv (s.make x).2 place others := by
  have hholds : ∀ h r, Holds (s.make x).2 place others h r ↔ Holds s place others h r := by
    refine Holds.congr fun f p => (Objects.make_handle hd).trans (or_iff_left ?_)
    rintro ⟨-, h, -⟩
    exact h.elim htype.2.1 htype.2.2
  refine I.make hd h0 (fun h => (h.elim htype.2.1 htype.2.2).elim)
    (fun b p => (or_iff_left ?_).symm)
    (I.exact.congr hholds fun _ => rfl) fun h r hr => I.live h r ((hholds h r).mp hr)
  exact fun h => htype.1 h.2.1

/-- A new handle takes over the reference of `a`. -/
theorem make_handle {a : Holder E}
    (hx : (x.type = .FILE ∨ x.type = .DIRECTORY) ∧ x.openFile = p) (hd : x.deleted = false)
    (h0 : x.count = 0) (ha : Holds s place others a p) (hp : (s.resources p).type = .OTHER)
    (hh : ∀ b y, Holds s place' others' b y ↔ Holds s place others b y ∧
      ¬(b = a ∧ y = p)) :
    Inv ((s.use p).make x).2 place' others' := by
  have hlive := I.live a p ha
  have hnew : ¬Holds s place others (.handle s.next) p := fun h => Objects.not_live_next h.1
  have hholds : ∀ c y, Holds ((s.use p).make x).2 place' others' c y ↔
      Holds s place others c y ∧ ¬(c = a ∧ y = p) ∨ c = .handle s.next ∧ y = p := by
    intro c y
    rw [← hh]
    cases c with
    | handle f =>
      refine (Objects.make_handle hd).trans (or_congr Iff.rfl ?_)
      simp [hx, eq_comm (a := p)]
    | place e => simp [Holds]
    | loose k => simp [Holds]
  refine (I.use hlive).make hd h0 (fun _ => ?_) (fun b q => (or_iff_left ?_).symm)
    (I.exact.move ha hnew hholds fun _ => rfl)
    fun c y hc => ?_
  · rw [hx.2]
    exact ⟨hlive, hp⟩
  · rintro ⟨-, h, -⟩
    rcases hx.1 with hx | hx <;> rw [hx] at h <;> cases h
  · rcases (hholds c y).mp hc with ⟨hc, -⟩ | ⟨-, rfl⟩
    · exact I.live c y hc
    · exact hlive

/-- A new object starts with `c` loose references. -/
theorem give {c : Nat} (hr : s.Live r) (h0 : (s.resources r).count = 0) (hc : c < 0x100000000) :
    Inv (s.setCount r c) place (Function.update others r c) := by
  have hnot := I.not_holds h0
  have hother : ∀ h y, y ≠ r →
      (Holds s place (Function.update others r c) h y ↔ Holds s place others h y) := by
    intro h y hy
    cases h <;> simp [Holds, hy]
  have hself : ∀ h, Holds s place (Function.update others r c) h r ↔
      ∃ k < c, Holder.loose k = h := by
    intro h
    have hr := hnot h
    cases h with
    | handle f => simpa [Holds] using hr
    | place e => simpa [Holds] using hr
    | loose k => simp [Holds]
  refine I.setCount hc (fun y => ?_) fun h y hy => ?_
  · by_cases hy : y = r
    · refine ⟨(Finset.range c).map ⟨Holder.loose, fun _ _ => Holder.loose.inj⟩,
        fun h => ?_, ?_⟩
      · rw [hy, hself, Finset.mem_map]
        simp only [Finset.mem_range]
        exact Iff.rfl
      · simp [hy]
    · obtain ⟨t, ht, hcard⟩ := I.exact y
      refine ⟨t, fun h => (ht h).trans (hother h y hy).symm, ?_⟩
      exact hcard.trans (if_neg hy).symm
  · by_cases hy' : y = r
    · rw [hy']
      exact hr
    · exact I.live h y ((hother h y hy').mp hy)

/-- The new `OpenFile` of `b`. -/
theorem addOpenFile (hb : s.openFiles b = none) : Inv (s.addOpenFile b) place others := by
  have hholds : ∀ h r, Holds (s.addOpenFile b) place others h r ↔ Holds s place others h r :=
    Holds.congr fun _ _ => Objects.addOpenFile_handle
  refine I.make rfl rfl (by simp [Objects.newOpenFile]) (fun c p => ?_)
    (I.exact.congr hholds fun _ => rfl)
    fun h r hr => I.live h r ((hholds h r).mp hr)
  rw [Function.update_apply]
  split
  next h => simp [h, hb, Objects.newOpenFile, eq_comm]
  next h => simp [Objects.newOpenFile, Ne.symm h]

/-- `a` gets a reference to the `OpenFile` of `b`. -/
theorem openFile {a : Holder E} (hlt : (s.resources (s.openFile b).1).count + 1 < 0x100000000)
    (ha : ¬Holds s place others a (s.openFile b).1)
    (hh : ∀ c y, Holds s place' others' c y ↔ Holds s place others c y ∨ c = a ∧
      y = (s.openFile b).1) :
    Inv (s.openFile b).2 place' others' := by
  rcases hb : s.openFiles b with _ | p
  · rw [Objects.openFile_none hb] at *
    have hcongr : ∀ place others h r, Holds (E := E) (s.addOpenFile b) place others h r ↔
        Holds s place others h r :=
      fun _ _ => Holds.congr fun _ _ => Objects.addOpenFile_handle
    have hself : ((s.addOpenFile b).resources s.next) = Objects.newOpenFile b :=
      Function.update_self ..
    refine (I.addOpenFile hb).ref (a := a) ⟨Nat.lt_succ_self _, ?_⟩ ?_ ?_ fun c y => ?_
    · rw [hself]
      rfl
    · rw [hself]
      change 0 + 1 < 0x100000000
      decide
    · rw [hcongr]
      exact ha
    · rw [hcongr, hcongr]
      exact hh c y
  · rw [Objects.openFile_some hb] at *
    exact I.ref ((I.cache b p).mp hb).1 hlt ha hh

/-! ## Forks -/

/-- The clone takes over the reference of `a`, and its count is that of `f`. -/
theorem cloneFile {a : Holder E} (hf : s.Live f) (ha : Holds s place others a p)
    (hp : (s.resources f).openFile = p) (htype : (s.resources p).type = .OTHER)
    (hh : ∀ b y, Holds s place' others' b y ↔ Holds s place others b y ∧
      ¬(b = a ∧ y = p)) :
    Inv (s.cloneFile f).2 place' (Function.update others' s.next (s.resources f).count) := by
  have hne : f ≠ s.next := hf.ne_next
  have I₁ := I.make_handle (x := Objects.clone s f) ⟨.inl rfl, hp⟩ rfl rfl ha htype hh
  have hlive : (((s.use p).make (s.clone f)).2).Live f := (Objects.make_live rfl).mpr (.inl hf)
  have hself : (((s.use p).make (s.clone f)).2.resources s.next) = s.clone f :=
    Function.update_self ..
  have I₂ := (I₁.use hlive).give (r := s.next) (c := (s.resources f).count)
      ⟨Nat.lt_succ_self _, congrArg _ hself⟩
    (congrArg _ hself) (I.count_lt f)
  rwa [Objects.cloneFile_eq hf, hp]

/-- The clone of a `File` that is in a table has a loose reference for every reference to the
file. -/
theorem forkMe_file (hf : s.Live f) (htype : (s.resources f).type = .FILE)
    (hlt : (s.resources (s.resources f).openFile).count + 1 < 0x100000000) :
    (s.forkMe f).1 = some s.next ∧
      Inv (s.forkMe f).2 place (Function.update others s.next (s.resources f).count) := by
  have hhandle : s.Handle f (s.resources f).openFile := ⟨hf, .inl htype, rfl⟩
  have hp := I.file _ _ hhandle
  have hlive := I.live (.handle f) _ hhandle
  have hne : f ≠ (s.resources f).openFile := by
    intro h
    rw [← h, htype] at hp
    cases hp
  have I₁ := (I.use hf).ref hlive hlt Holds.not_more Holds.more
  have hcongr : ∀ others h r, Holds ((s.use f).ref (s.resources f).openFile) place others h r ↔
      Holds s place others h r :=
    fun _ => Holds.congr fun _ _ => Objects.ref_handle
  have hkeep : ((s.use f).ref (s.resources f).openFile).resources f = s.resources f := by
    rw [Objects.ref_resources, if_neg hne]
    rfl
  have I₂ : Inv (((s.use f).ref (s.resources f).openFile).cloneFile f).2 place
      (Function.update others
      ((s.use f).ref (s.resources f).openFile).next
        (((s.use f).ref (s.resources f).openFile).resources f).count) := by
    refine I₁.cloneFile (p := (s.resources f).openFile)
      (a := .loose (others (s.resources f).openFile)) ?_ ?_ ?_ ?_ ?_
    · rw [Objects.Live, hkeep]
      exact hf
    · exact (hcongr ..).mpr ((Holds.more ..).mpr (.inr ⟨rfl, rfl⟩))
    · rw [hkeep]
    · rw [Objects.ref_resources]
      exact hp
    · exact Holds.less
  rw [hkeep] at I₂
  simp only [Objects.forkMe]
  rw [Objects.use_resources, htype]
  exact ⟨rfl, I₂⟩

end Inv

end K439.Handles
