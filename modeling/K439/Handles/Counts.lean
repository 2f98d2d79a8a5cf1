import K439.Handles.Basic
import K439.Lib.RefCount

/-!
# The counts are exact

A reference to an object is held by an object that refers to it, by a place outside of the objects
(a slot of a table, a process in the middle of a call), or it is loose: nothing that is modelled
holds it. The count of every object is the number of the references to it (`Inv.exact`). Each lemma
is one step of the references.
-/

namespace K439.Handles

open Exit (ResourceType)

/-- No object is used or deleted after it is deleted. -/
def Clean (log : List Event) : Prop := log.Pairwise fun e e' => ∀ r, e = .delete r → e'.id ≠ r

/-- Who holds a reference. -/
inductive Holder (E : Type)
  | handle (f : Id)
  | place (e : E)
  | loose (k : Nat)

variable {E : Type}

def Holds (s : Objects) (place : E → Option Id) (others : Id → Nat) : Holder E → Id → Prop
  | .handle f, r => s.Handle f r
  | .place e, r => place e = some r
  | .loose k, r => k < others r

structure Inv (s : Objects) (place : E → Option Id) (others : Id → Nat) : Prop where
  exact : RefCounted (Holds s place others) fun r => (s.resources r).count
  live : ∀ h r, Holds s place others h r → s.Live r
  file : ∀ f p, s.Handle f p → (s.resources p).type = .OTHER
  cache : ∀ b p, s.openFiles b = some p ↔ s.Live p ∧ (s.resources p).type = .OTHER ∧
    (s.resources p).start = b
  count_lt : ∀ r, (s.resources r).count < 0x100000000
  clean : Clean s.log
  logged : ∀ r, .delete r ∈ s.log ↔ r < s.next ∧ (s.resources r).deleted = true

variable {s s' : Objects} {place place' : E → Option Id} {others others' : Id → Nat}
  {r p f b : Id} {h : Holder E}

/-! ## Holders -/

/-- Only the handles depend on the objects. -/
theorem Holds.congr (hh : ∀ f p, s'.Handle f p ↔ s.Handle f p) (h : Holder E) (r : Id) :
    Holds s' place others h r ↔ Holds s place others h r := by
  cases h with
  | handle f => exact hh f r
  | place e => exact Iff.rfl
  | loose k => exact Iff.rfl

/-- One more loose reference. -/
theorem Holds.more (h : Holder E) (r : Id) :
    Holds s place (Function.update others p (others p + 1)) h r ↔
    Holds s place others h r ∨ h = .loose (others p) ∧ r = p := by
  cases h with
  | handle f => simp [Holds]
  | place e => simp [Holds]
  | loose k =>
    simp only [Holds, Function.update_apply, Holder.loose.injEq]
    split
    next h =>
      subst h
      rw [and_iff_left rfl]
      exact Nat.lt_succ_iff_lt_or_eq
    next h => simp [h]

theorem Holds.not_more : ¬Holds s place others (.loose (others p)) p := Nat.lt_irrefl _

/-- One loose reference less. -/
theorem Holds.less (h : Holder E) (r : Id) : Holds s place others h r ↔
    Holds s place (Function.update others p (others p + 1)) h r ∧
    ¬(h = .loose (others p) ∧ r = p) := by
  rw [Holds.more]
  refine ⟨fun hr => ⟨.inl hr, ?_⟩, fun hr => hr.1.resolve_right hr.2⟩
  rintro ⟨rfl, rfl⟩
  exact Holds.not_more hr

theorem Holds.pred (h : 0 < others p) :
    ∃ others' : Id → Nat, Function.update others' p (others' p + 1) = others ∧
    ∀ r ≠ p, others' r = others r := by
  refine ⟨Function.update others p (others p - 1), ?_, fun r hr => Function.update_of_ne hr ..⟩
  rw [Function.update_self, Nat.sub_add_cancel h, Function.update_idem, Function.update_eq_self]

theorem Holds.not_place {e : E} (he : place e = none) : ¬Holds s place others (.place e) r :=
  fun h => Option.some_ne_none r (h.symm.trans he)

/-- `r` is stored in an empty place. -/
theorem Holds.fill [DecidableEq E] {e : E} (he : place e = none) (h : Holder E) (x : Id) :
    Holds s (Function.update place e (some r)) others h x ↔ Holds s place others h x ∨
    h = .place e ∧ x = r := by
  cases h with
  | handle f => simp [Holds]
  | loose k => simp [Holds]
  | place e' =>
    simp only [Holds, Function.update_apply, Holder.place.injEq]
    split
    next h => simp [h, he, eq_comm]
    next h => simp [h]

/-- The place of `r` is cleared. -/
theorem Holds.clear [DecidableEq E] {e : E} (he : place e = some r) (h : Holder E) (x : Id) :
    Holds s (Function.update place e none) others h x ↔ Holds s place others h x ∧
    ¬(h = .place e ∧ x = r) := by
  cases h with
  | handle f => simp [Holds]
  | loose k => simp [Holds]
  | place e' =>
    simp only [Holds, Function.update_apply, Holder.place.injEq]
    split
    next h => simp [h, he, eq_comm]
    next h => simp [h]

/-- There are no objects at the beginning. -/
theorem Inv.init (hp : ∀ e, place e = none) :
    Inv ⟨fun _ => ⟨.OTHER, 0, false, 0, 0, 0⟩, 0, fun _ => none, []⟩ place fun _ => 0 := by
  refine ⟨fun x => ⟨∅, fun h => ?_, rfl⟩, fun h r hh => ?_, ?_, ?_, ?_, ?_, ?_⟩
  · cases h <;> simp [Holds, hp, Objects.Handle, Objects.Live]
  · cases h with
    | handle f => exact absurd hh.1.1 (Nat.not_lt_zero _)
    | place e => exact absurd hh (Holds.not_place (hp e))
    | loose k => exact absurd hh (Nat.not_lt_zero _)
  · exact fun f p h => absurd h.1.1 (Nat.not_lt_zero _)
  · exact fun b p => iff_of_false (Option.some_ne_none p).symm fun h => Nat.not_lt_zero _ h.1.1
  · exact fun r => Nat.zero_lt_succ _
  · exact List.Pairwise.nil
  · exact fun r => iff_of_false List.not_mem_nil fun h => Nat.not_lt_zero _ h.1

theorem Clean.append {log : List Event} {e : Event} (C : Clean log) (h : .delete e.id ∉ log) :
    Clean (log ++ [e]) := by
  refine List.pairwise_append.mpr ⟨C, List.pairwise_singleton _ _,
    fun e' he' e'' he'' r hr hid => h ?_⟩
  obtain rfl := List.mem_singleton.mp he''
  rwa [hid, ← hr]

/-- An object is deleted at most once. -/
theorem Clean.once {log : List Event} (C : Clean log) (r : Id) : log.count (.delete r) ≤ 1 := by
  induction log with
  | nil => exact Nat.zero_le _
  | cons e log ih =>
    obtain ⟨he, C'⟩ := List.pairwise_cons.mp C
    rw [List.count_cons]
    split
    next h =>
      rw [List.count_eq_zero.mpr fun hm => he _ hm r (beq_iff_eq.mp h) rfl]
    next => exact ih C'

/-! ## Small steps -/

namespace Objects

@[simp] theorem use_resources : (s.use r).resources = s.resources := rfl
@[simp] theorem use_next : (s.use r).next = s.next := rfl
@[simp] theorem use_openFiles : (s.use r).openFiles = s.openFiles := rfl
@[simp] theorem setCount_next {c : Nat} : (s.setCount r c).next = s.next := rfl
@[simp] theorem setCount_openFiles {c : Nat} : (s.setCount r c).openFiles = s.openFiles := rfl
@[simp] theorem setCount_log {c : Nat} : (s.setCount r c).log = s.log := rfl
@[simp] theorem delete_next : (s.delete r).next = s.next := rfl
@[simp] theorem delete_openFiles : (s.delete r).openFiles = s.openFiles := rfl

/-- Only the count of `r` changes. -/
@[simp] theorem setCount_resources {c : Nat} (x : Id) : (s.setCount r c).resources x =
    { s.resources x with count := if x = r then c else (s.resources x).count } := by
  refine (Function.update_apply ..).trans ?_
  split
  next h => rw [h]
  next h => rfl

@[simp] theorem delete_resources (x : Id) : (s.delete r).resources x =
    { s.resources x with deleted := if x = r then true else (s.resources x).deleted } := by
  refine (Function.update_apply ..).trans ?_
  split
  next h => rw [h]
  next h => rfl

theorem setCount_handle {c : Nat} : (s.setCount r c).Handle f p ↔ s.Handle f p := by
  simp only [Handle, Live, setCount_resources, setCount_next]

theorem delete_live {x : Id} : (s.delete r).Live x ↔ s.Live x ∧ x ≠ r := by
  rw [Live, Live, delete_resources, delete_next]
  dsimp only
  by_cases h : x = r
  · rw [if_pos h]
    exact iff_of_false (by simp) fun h' => h'.2 h
  · rw [if_neg h, and_iff_left h]

/-- A deleted object is no handle. -/
theorem delete_handle : (s.delete r).Handle f p ↔ s.Handle f p ∧ f ≠ r := by
  rw [Handle, Handle, delete_live, delete_resources]
  tauto

@[simp] theorem ref_next : (s.ref r).next = s.next := rfl
@[simp] theorem ref_openFiles : (s.ref r).openFiles = s.openFiles := rfl

@[simp] theorem ref_resources (x : Id) : (s.ref r).resources x =
    { s.resources x with count := if x = r then ((s.resources r).count + 1) % 0x100000000 else
      (s.resources x).count } := by
  rw [ref, setCount_resources, use_resources]

theorem ref_handle : (s.ref r).Handle f p ↔ s.Handle f p := setCount_handle

end Objects

/-- The destructor of a directory does not close its `content`. -/
def Objects.leaked (s : Objects) (others : Id → Nat) (r : Id) : Id → Nat :=
  let p := (s.resources r).openFile
  if (s.resources r).type = .DIRECTORY then Function.update others p (others p + 1) else others

/-! ## References -/

namespace Inv

variable (I : Inv s place others)
include I

theorem not_logged (hr : s.Live r) : .delete r ∉ s.log := fun h => by
  have := ((I.logged r).mp h).2
  rw [hr.2] at this
  cases this

theorem place_pos {e : E} (h : place e = some r) : 0 < (s.resources r).count := by
  have hh : Holds s place others (.place e) r := h
  exact I.exact.pos hh

/-- A live object is used. -/
theorem use (hr : s.Live r) : Inv (s.use r) place others := by
  refine ⟨I.exact, I.live, I.file, I.cache, I.count_lt, I.clean.append (I.not_logged hr),
    fun x => ?_⟩
  rw [Objects.use, List.mem_append, List.mem_singleton, or_iff_left (by simp)]
  exact I.logged x

/-- The references change with the count of `r`. -/
theorem setCount {c : Nat} (hc : c < 0x100000000)
    (hexact : RefCounted (Holds s place' others') fun x => if x =
      r then c else (s.resources x).count)
    (hlive : ∀ h x, Holds s place' others' h x → s.Live x) :
    Inv (s.setCount r c) place' others' := by
  have hholds : ∀ h x, Holds (s.setCount r c) place' others' h x ↔ Holds s place' others' h x :=
    Holds.congr fun _ _ => Objects.setCount_handle
  refine ⟨?_, fun h x hx => ?_, fun f p hf => ?_, fun b p => ?_, fun x => ?_, I.clean,
    fun x => ?_⟩
  · exact hexact.congr hholds fun x => by rw [Objects.setCount_resources]
  · rw [Objects.Live, Objects.setCount_resources]
    exact hlive h x ((hholds h x).mp hx)
  · rw [Objects.setCount_resources]
    exact I.file f p (Objects.setCount_handle.mp hf)
  · simp only [Objects.Live, Objects.setCount_resources]
    exact I.cache b p
  · rw [Objects.setCount_resources]
    dsimp only
    split
    · exact hc
    · exact I.count_lt x
  · rw [Objects.setCount_resources]
    exact I.logged x

/-- `a` takes a reference to `r`. -/
theorem ref {a : Holder E} (hr : s.Live r) (hlt : (s.resources r).count + 1 < 0x100000000)
    (ha : ¬Holds s place others a r)
    (hh : ∀ b y, Holds s place' others' b y ↔ Holds s place others b y ∨ b = a ∧ y = r) :
    Inv (s.ref r) place' others' := by
  rw [Objects.ref, Nat.mod_eq_of_lt hlt]
  refine (I.use hr).setCount hlt (I.exact.take ha hh fun y => rfl) fun b y hb => ?_
  rcases (hh b y).mp hb with hb | ⟨-, rfl⟩
  · exact I.live b y hb
  · exact hr

/-- The reference of `a` goes to `b`. -/
theorem move {a b : Holder E} (ha : Holds s place others a r) (hb : ¬Holds s place others b r)
    (hh : ∀ c y, Holds s place' others' c y ↔ Holds s place others c y ∧
      ¬(c = a ∧ y = r) ∨ c = b ∧ y = r) :
    Inv s place' others' := by
  refine ⟨I.exact.move ha hb hh fun _ => rfl, fun c y hc => ?_, I.file, I.cache, I.count_lt,
    I.clean, I.logged⟩
  rcases (hh c y).mp hc with ⟨hc, -⟩ | ⟨-, rfl⟩
  · exact I.live c y hc
  · exact I.live a y ha

/-- A reference that is not the last one is dropped. -/
theorem release {a : Holder E} (ha : Holds s place others a r) (h1 : (s.resources r).count ≠ 1)
    (hh : ∀ b y, Holds s place' others' b y ↔ Holds s place others b y ∧
      ¬(b = a ∧ y = r)) :
    (s.release r).1 = false ∧ Inv (s.release r).2 place' others' := by
  have hpos := I.exact.pos ha
  have hlt := I.count_lt r
  have hcount : ((s.resources r).count + 0xffffffff) % 0x100000000 = (s.resources r).count - 1 := by
    omega
  rw [Objects.release, hcount, if_neg h1]
  refine ⟨rfl, (I.use (I.live a r ha)).setCount (by omega) (I.exact.drop ha hh fun y => rfl)
    fun b y hb => ?_⟩
  exact I.live b y ((hh b y).mp hb).1

/-- An object that nobody refers to is deleted, and `openFiles` no longer holds it. -/
theorem delete {o : Nat → Option Id} (hr : s.Live r)
    (hcache : ∀ b p, o b = some p ↔ s.openFiles b = some p ∧ p ≠ r)
    (hexact : RefCounted (Holds (s.delete r) place' others') fun x => (s.resources x).count)
    (hlive : ∀ h x, Holds (s.delete r) place' others' h x → s.Live x ∧ x ≠ r) :
    Inv { s.delete r with openFiles := o } place' others' := by
  refine ⟨hexact.congr (Holds.congr fun _ _ => Iff.rfl) fun x => by rw [Objects.delete_resources],
    fun h x hx => ?_,
    fun f p hf => ?_, fun b p => ?_, fun x => ?_, I.clean.append (I.not_logged hr), fun x => ?_⟩
  · exact Objects.delete_live.mpr (hlive h x ((Holds.congr (fun _ _ => Iff.rfl) h x).mp hx))
  · rw [Objects.delete_resources]
    exact I.file f p (Objects.delete_handle.mp hf).1
  · change o b = some p ↔ (s.delete r).Live p ∧ ((s.delete r).resources p).type = _ ∧
      ((s.delete r).resources p).start = b
    rw [hcache, I.cache, Objects.delete_live, Objects.delete_resources]
    tauto
  · rw [Objects.delete_resources]
    exact I.count_lt x
  · rw [Objects.delete, List.mem_append, List.mem_singleton, ← Objects.delete,
      Objects.delete_resources, I.logged]
    dsimp only
    by_cases h : x = r
    · rw [if_pos h, h]
      exact iff_of_true (.inr rfl) ⟨hr.1, rfl⟩
    · rw [if_neg h, or_iff_left (fun he => h (Event.delete.inj he))]
      rfl

/-- An object that is no `OpenFile` is not in `openFiles`. -/
theorem not_cached (htype : (s.resources r).type ≠ .OTHER) (b : Nat) (p : Id) :
    s.openFiles b = some p ↔ s.openFiles b = some p ∧ p ≠ r := by
  refine (and_iff_left_of_imp fun h => ?_).symm
  rintro rfl
  exact htype ((I.cache b p).mp h).2.1

theorem not_holds (h0 : (s.resources r).count = 0) (h : Holder E) : ¬Holds s place others h r :=
  fun hr => by
  have := I.exact.pos hr
  omega

/-- No references are lost with an object that is no handle. -/
theorem delete_plain {o : Nat → Option Id} (hr : s.Live r) (h0 : (s.resources r).count = 0)
    (htype : (s.resources r).type ≠ .FILE ∧ (s.resources r).type ≠ .DIRECTORY)
    (hcache : ∀ b p, o b = some p ↔ s.openFiles b = some p ∧ p ≠ r) :
    Inv { s.delete r with openFiles := o } place others := by
  have hhandle : ∀ f p, (s.delete r).Handle f p ↔ s.Handle f p := by
    intro f p
    rw [Objects.delete_handle]
    refine and_iff_left_of_imp ?_
    rintro ⟨-, h, -⟩ rfl
    exact h.elim htype.1 htype.2
  refine I.delete hr hcache (I.exact.congr (Holds.congr hhandle) fun _ => rfl) fun h x hx => ?_
  rw [Holds.congr hhandle] at hx
  refine ⟨I.live h x hx, ?_⟩
  rintro rfl
  exact I.not_holds h0 h hx

/-- The reference of a handle that is deleted is loose. -/
theorem delete_loose (hr : s.Live r) (h0 : (s.resources r).count = 0) (hf : s.Handle r p) :
    Inv (s.delete r) place (Function.update others p (others p + 1)) := by
  have hfile := I.file r p hf
  have htype : (s.resources r).type ≠ .OTHER := by
    rcases hf.2.1 with h | h <;> simp [h]
  have hmove : ∀ h x, Holds (s.delete r) place (Function.update others p (others p + 1)) h x ↔
      Holds s place others h x ∧ ¬(h = .handle r ∧ x = p) ∨ h = .loose (others p) ∧
        x = p := by
    intro h x
    cases h with
    | handle f =>
      simp only [Holds, Objects.delete_handle, Holder.handle.injEq, reduceCtorEq,
        false_and, or_false]
      refine and_congr_right fun hx => not_congr ⟨fun h => ⟨h, ?_⟩, fun h => h.1⟩
      subst h
      exact hx.2.2.symm.trans hf.2.2
    | place e => simp [Holds]
    | loose k =>
      exact (Holds.more _ x).trans (by simp [Holds])
  have hheld : Holds s place others (.handle r) p := hf
  have hloose : ¬Holds s place others (.loose (others p)) p := Nat.lt_irrefl _
  refine I.delete hr (I.not_cached htype)
    (I.exact.move hheld hloose hmove fun _ => rfl) fun h x hx => ?_
  have hx' : ∃ h, Holds s place others h x := by
    rcases (hmove h x).mp hx with ⟨hx, -⟩ | ⟨-, rfl⟩
    · exact ⟨h, hx⟩
    · exact ⟨_, hheld⟩
  obtain ⟨h', hx'⟩ := hx'
  refine ⟨I.live h' x hx', ?_⟩
  rintro rfl
  exact I.not_holds h0 h' hx'

/-- What is left to do when the last reference to `r` is dropped is to delete it. -/
theorem release_last {a : Holder E} (ha : Holds s place others a r) (h1 : (s.resources r).count = 1)
    (hh : ∀ b y, Holds s place' others' b y ↔ Holds s place others b y ∧
      ¬(b = a ∧ y = r)) :
    ∃ s₁, s.release r = (true, s₁.delete r) ∧ Inv s₁ place' others' ∧
    s₁ = (s.use r).setCount r 0 := by
  refine ⟨_, ?_, (I.use (I.live a r ha)).setCount (by decide) (I.exact.drop ha hh fun y => ?_)
    fun b y hb => ?_, rfl⟩
  · rw [Objects.release, if_pos h1, h1]
  · split <;> simp_all
  · exact I.live b y ((hh b y).mp hb).1

/-! ## Open files -/

/-- The last reference to an `OpenFile` goes with its entry in `openFiles`. -/
theorem closeFile {a : Holder E} (ha : Holds s place others a p)
    (htype : (s.resources p).type = .OTHER)
    (hh : ∀ b y, Holds s place' others' b y ↔ Holds s place others b y ∧
      ¬(b = a ∧ y = p)) :
    Inv (s.closeFile p) place' others' := by
  have hlive := I.live a p ha
  have hcache : s.openFiles (s.resources p).start = some p :=
    (I.cache _ _).mpr ⟨hlive, htype, rfl⟩
  have I₁ := I.use hlive
  simp only [Objects.closeFile, Objects.use_resources, Objects.use_openFiles, hcache]
  by_cases h1 : (s.resources p).count = 1
  · obtain ⟨s₁, hs₁, I₂, rfl⟩ := I₁.release_last ha h1 hh
    rw [hs₁]
    refine I₂.delete_plain ?_ ?_ ?_ fun b q => ?_
    · rw [Objects.Live, Objects.setCount_resources]
      exact hlive
    · rw [Objects.setCount_resources]
      exact if_pos rfl
    · rw [Objects.setCount_resources]
      simp [htype]
    · change Function.update s.openFiles _ none b = _ ↔ s.openFiles b = _ ∧ _
      rw [Function.update_apply]
      split
      next h =>
        rw [h, hcache]
        simp only [reduceCtorEq, Option.some.injEq, false_iff, not_and, not_not]
        exact Eq.symm
      next h =>
        refine (and_iff_left_of_imp fun hq => ?_).symm
        rintro rfl
        exact h ((I.cache b q).mp hq).2.2.symm
  · obtain ⟨hs₁, I₂⟩ := I₁.release ha h1 hh
    have hopen : ((s.use p).release p).2.openFiles = s.openFiles := by
      rw [Objects.release]
      split <;> rfl
    rw [hs₁]
    rwa [if_neg Bool.false_ne_true, hopen, ← hcache, Function.update_eq_self, ← hopen]

/-- Nobody refers to `r`. -/
theorem destroy (hr : s.Live r) (h0 : (s.resources r).count = 0)
    (htype : (s.resources r).type ≠ .OTHER) :
    Inv ((s.delete r).destructor r) place (s.leaked others r) := by
  rw [Objects.destructor, Objects.leaked, Objects.delete_resources]
  by_cases hfile : (s.resources r).type = .FILE
  · have hf : s.Handle r (s.resources r).openFile := ⟨hr, .inl hfile, rfl⟩
    have I₁ := I.delete_loose hr h0 hf
    simp only [hfile]
    refine I₁.closeFile ((Holds.more _ _).mpr (.inr ⟨rfl, rfl⟩)) ?_ Holds.less
    rw [Objects.delete_resources]
    exact I.file _ _ hf
  · by_cases hdir : (s.resources r).type = .DIRECTORY
    · simp only [hdir]
      exact I.delete_loose hr h0 ⟨hr, .inr hdir, rfl⟩
    · have I₁ := I.delete_plain hr h0 ⟨hfile, hdir⟩ (I.not_cached htype)
      rw [if_neg hdir]
      split
      next h => exact absurd h hfile
      next => exact I₁

/-- A reference is dropped, and the last one goes with the object. -/
theorem unref {a : Holder E} (ha : Holds s place others a r)
    (htype : (s.resources r).type ≠ .OTHER)
    (hh : ∀ b y, Holds s place' others' b y ↔ Holds s place others b y ∧
      ¬(b = a ∧ y = r)) :
    Inv (s.unref (some r)) place' (if (s.resources r).count = 1 then s.leaked others' r else
      others') := by
  simp only [Objects.unref]
  by_cases h1 : (s.resources r).count = 1
  · obtain ⟨s₁, hs₁, I₁, rfl⟩ := I.release_last ha h1 hh
    rw [hs₁, if_pos rfl, if_pos h1]
    have hr : ((s.use r).setCount r 0).Live r := by
      rw [Objects.Live, Objects.setCount_resources]
      exact I.live a r ha
    have I₂ := I₁.destroy hr
    rw [Objects.leaked, Objects.setCount_resources] at I₂
    exact I₂ (if_pos rfl) htype
  · rw [if_neg h1]
    obtain ⟨hs₁, I₁⟩ := I.release ha h1 hh
    rw [hs₁, if_neg Bool.false_ne_true]
    exact I₁

end Inv

end K439.Handles
