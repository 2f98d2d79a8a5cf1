import K439.Handles.Fresh

/-!
# What the operations leave alone

No operation changes what kind of object an object is (`Typed`), and `openFile`, `closeFile` and
what makes new objects only change `OpenFile` objects (`Kept`).
-/

namespace K439.Handles

open Exit (ResourceType)

/-- The objects have the types, files and blocks they had. -/
structure Typed (s s' : Objects) : Prop where
  next : s.next ≤ s'.next
  type : ∀ x < s.next, (s'.resources x).type = (s.resources x).type
  openFile : ∀ x < s.next, (s'.resources x).openFile = (s.resources x).openFile
  start : ∀ x < s.next, (s'.resources x).start = (s.resources x).start

/-- The objects that are no `OpenFile` do not change. -/
structure Kept (s s' : Objects) : Prop extends Typed s s' where
  same : ∀ x < s.next, (s.resources x).type ≠ .OTHER → s'.resources x = s.resources x

variable {E : Type} {s s' s'' : Objects} {place : E → Option Id} {others : Id → Nat}
  {r p f b : Id} {x : Resource}

theorem Typed.refl : Typed s s :=
  ⟨Nat.le_refl _, fun _ _ => rfl, fun _ _ => rfl, fun _ _ => rfl⟩

theorem Typed.trans (h₁ : Typed s s') (h₂ : Typed s' s'') : Typed s s'' where
  next := h₁.next.trans h₂.next
  type x hx := (h₂.type x (hx.trans_le h₁.next)).trans (h₁.type x hx)
  openFile x hx := (h₂.openFile x (hx.trans_le h₁.next)).trans (h₁.openFile x hx)
  start x hx := (h₂.start x (hx.trans_le h₁.next)).trans (h₁.start x hx)

theorem Kept.refl : Kept s s := ⟨Typed.refl, fun _ _ _ => rfl⟩

theorem Kept.trans (h₁ : Kept s s') (h₂ : Kept s' s'') : Kept s s'' where
  toTyped := h₁.toTyped.trans h₂.toTyped
  same x hx ht := by
    have ht' : (s'.resources x).type ≠ .OTHER := by rwa [h₁.type x hx]
    exact (h₂.same x (hx.trans_le h₁.next) ht').trans (h₁.same x hx ht)

theorem Kept.live {y : Id} (h : Kept s s') (hy : s.Live y) (ht : (s.resources y).type ≠ .OTHER) :
    s'.Live y := by
  refine ⟨hy.1.trans_le h.next, ?_⟩
  rw [h.same y hy.1 ht]
  exact hy.2

namespace Objects

theorem use_kept (s : Objects) (r : Id) : Kept s (s.use r) :=
  ⟨⟨Nat.le_refl _, fun _ _ => rfl, fun _ _ => rfl, fun _ _ => rfl⟩,
  fun _ _ _ => rfl⟩

theorem setCount_typed (s : Objects) (r : Id) (c : Nat) : Typed s (s.setCount r c) := by
  refine ⟨Nat.le_refl _, fun y _ => ?_, fun y _ => ?_, fun y _ => ?_⟩ <;>
    rw [setCount_resources]

theorem delete_typed (s : Objects) (r : Id) : Typed s (s.delete r) := by
  refine ⟨Nat.le_refl _, fun y _ => ?_, fun y _ => ?_, fun y _ => ?_⟩ <;> rw [delete_resources]

theorem ref_typed (s : Objects) (r : Id) : Typed s (s.ref r) :=
  (use_kept s r).toTyped.trans (setCount_typed ..)

theorem release_typed (s : Objects) (r : Id) : Typed s (s.release r).2 := by
  have h := (use_kept s r).toTyped.trans (setCount_typed (s.use r) r
      (((s.resources r).count + 0xffffffff) % 0x100000000))
  rw [release]
  split
  · exact h.trans (delete_typed ..)
  · exact h

/-- Only `r` changes. -/
theorem release_same {y : Id} (hy : y ≠ r) : (s.release r).2.resources y = s.resources y := by
  rw [release]
  split
  · simp [hy]
  · simp [hy]

theorem release_next : (s.release r).2.next = s.next := by
  rw [release]
  split <;> rfl

theorem release_live {y : Id} (hy : s.Live y) (h : y ≠ r ∨ (s.resources r).count ≠ 1) :
    (s.release r).2.Live y := by
  rcases eq_or_ne y r with rfl | hne
  · rw [release, if_neg (h.resolve_left fun h => h rfl)]
    rwa [Live, setCount_resources]
  · rw [Live, release_same hne, release_next]
    exact hy

theorem closeFile_typed (s : Objects) (p : Id) : Typed s (s.closeFile p) := by
  rw [closeFile]
  dsimp only
  split
  · exact (use_kept s p).toTyped
  next q _ =>
    have h := (use_kept s p).toTyped.trans (release_typed (s.use p) q)
    exact ⟨h.next, h.type, h.openFile, h.start⟩

theorem make_kept (s : Objects) (x : Resource) : Kept s (s.make x).2 := by
  refine ⟨⟨Nat.le_succ _, fun y hy => ?_, fun y hy => ?_, fun y hy => ?_⟩,
    fun y hy _ => ?_⟩ <;>
    rw [make_resources, if_neg (Nat.ne_of_lt hy)]

theorem newFile_kept (s : Objects) (p : Id) : Kept s (s.newFile p).2 :=
  (use_kept s p).trans (make_kept ..)

theorem newDirectory_kept (s : Objects) (p : Id) : Kept s (s.newDirectory p).2 :=
  (use_kept s p).trans (make_kept ..)

theorem ref_kept (hp : (s.resources p).type = .OTHER) : Kept s (s.ref p) := by
  refine ⟨ref_typed s p, fun y _ ht => ?_⟩
  rw [ref_resources, if_neg]
  rintro rfl
  exact ht hp

/-- The other objects do not change. -/
theorem cloneFile_same {y : Id} (hf : s.Live f) (hy : y < s.next) :
    (s.cloneFile f).2.resources y = s.resources y := by
  have hne := Nat.ne_of_lt hy
  rw [cloneFile_eq hf, setCount_resources, if_neg hne, use_resources, make_resources, use_next,
    if_neg hne, use_resources]

theorem cloneFile_kept (hf : s.Live f) : Kept s (s.cloneFile f).2 := by
  refine ⟨⟨?_, fun y hy => ?_, fun y hy => ?_, fun y hy => ?_⟩,
    fun y hy _ => cloneFile_same hf hy⟩
  · rw [cloneFile_eq hf]
    exact Nat.le_succ _
  all_goals rw [cloneFile_same hf hy]

theorem destructor_typed (s : Objects) (r : Id) : Typed s (s.destructor r) := by
  rw [destructor]
  split
  · exact closeFile_typed ..
  · exact Typed.refl

theorem unref_typed (s : Objects) (r : Option Id) : Typed s (s.unref r) := by
  cases r with
  | none => exact Typed.refl
  | some r =>
    simp only [unref]
    split
    · exact (release_typed s r).trans (destructor_typed ..)
    · exact release_typed s r

theorem forkMe_process (h : (s.resources r).type = .PROCESS) : s.forkMe r = (none, s.use r) := by
  simp only [forkMe, use_resources, h]

theorem forkMe_clone (h : (s.resources r).type = .FILE) : s.forkMe r =
    (some (((s.use r).ref (s.resources r).openFile).cloneFile r).1,
      (((s.use r).ref (s.resources r).openFile).cloneFile r).2) := by
  simp only [forkMe, use_resources, h]

theorem forkMe_shared (h : (s.resources r).type ≠ .PROCESS)
    (h' : (s.resources r).type ≠ .FILE) : s.forkMe r = (some r, (s.use r).ref r) := by
  simp only [forkMe, use_resources]

theorem cloneFile_live (hr : s.Live r) : ((s.use r).ref p).Live r := by
  rw [Live, ref_resources]
  exact hr

theorem forkMe_typed (hr : s.Live r) : Typed s (s.forkMe r).2 := by
  have h := fun p => (use_kept s r).toTyped.trans (ref_typed (s.use r) p)
  by_cases hp : (s.resources r).type = .PROCESS
  · rw [forkMe_process hp]
    exact (use_kept s r).toTyped
  by_cases hf : (s.resources r).type = .FILE
  · rw [forkMe_clone hf]
    exact (h _).trans (cloneFile_kept (cloneFile_live hr)).toTyped
  · rw [forkMe_shared hp hf]
    exact h r

/-- The clone is a `File`. -/
theorem cloneFile_type (hf : s.Live f) : ((s.cloneFile f).2.resources s.next).type = .FILE := by
  rw [cloneFile_eq hf, setCount_resources, use_resources, make_resources, use_next, if_pos rfl]
  rfl

/-- Only an `OpenFile` is closed. -/
theorem closeFile_kept (hcache : ∀ b q, s.openFiles b = some q →
      (s.resources q).type = .OTHER) : Kept s (s.closeFile p) := by
  refine ⟨closeFile_typed s p, fun y _ ht => ?_⟩
  rw [closeFile]
  dsimp only
  split
  · rfl
  next q hq =>
    have hne : y ≠ q := by
      rintro rfl
      exact ht (hcache _ _ hq)
    exact release_same hne

theorem release_type {y : Id} : ((s.release r).2.resources y).type = (s.resources y).type := by
  rw [release]
  split <;> simp

theorem release_openFiles : (s.release r).2.openFiles = s.openFiles := by
  rw [release]
  split <;> rfl

/-- A reference that is not the last one. -/
theorem unref_shared (h1 : (s.resources r).count ≠ 1) : s.unref (some r) = (s.release r).2 ∧
    ((s.release r).2.resources r).count = ((s.resources r).count + 0xffffffff) % 0x100000000 := by
  simp [unref, release, h1]

/-- The other objects that are no `OpenFile` do not change. -/
theorem unref_same {y : Id}
    (hcache : ∀ b q, s.openFiles b = some q → (s.resources q).type = .OTHER) (hy : y < s.next)
    (hne : y ≠ r) (ht : (s.resources y).type ≠ .OTHER) :
    (s.unref (some r)).resources y = s.resources y := by
  have h := release_same (s := s) hne
  simp only [unref]
  split
  · rw [destructor]
    split
    · have hcache' : ∀ b q, (s.release r).2.openFiles b = some q →
          ((s.release r).2.resources q).type = .OTHER := by
        intro b q hq
        rw [release_openFiles] at hq
        rw [release_type]
        exact hcache b q hq
      rw [(closeFile_kept hcache').same y, h]
      · rwa [release_next]
      · rwa [h]
    · exact h
  · exact h

end Objects

namespace Inv

variable (I : Inv s place others)
include I

theorem cached (b : Nat) (q : Id) (h : s.openFiles b = some q) : (s.resources q).type = .OTHER :=
  ((I.cache b q).mp h).2.1

theorem closeFile_kept : Kept s (s.closeFile p) := Objects.closeFile_kept I.cached

theorem openFile_kept :
    Kept s (s.openFile b).2 ∧ ((s.openFile b).2.resources (s.openFile b).1).type = .OTHER ∧
    (s.openFile b).1 < (s.openFile b).2.next := by
  rcases hb : s.openFiles b with _ | p
  · rw [Objects.openFile_none hb]
    have hself : ((s.addOpenFile b).resources s.next) = Objects.newOpenFile b :=
      Function.update_self ..
    have hk := Objects.make_kept s (Objects.newOpenFile b)
    have h₁ : Kept s (s.addOpenFile b) :=
      ⟨⟨hk.next, hk.type, hk.openFile, hk.start⟩, hk.same⟩
    refine ⟨h₁.trans (Objects.ref_kept ?_), ?_, Nat.lt_succ_self _⟩
    · rw [hself]
      rfl
    · rw [Objects.ref_resources, hself]
      rfl
  · rw [Objects.openFile_some hb]
    obtain ⟨hp, ht, -⟩ := (I.cache b p).mp hb
    refine ⟨Objects.ref_kept ht, ?_, hp.1⟩
    rw [Objects.ref_resources]
    exact ht

end Inv

end K439.Handles
