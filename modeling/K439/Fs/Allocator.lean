import K439.Fs.Remove
import K439.Lib.Chains
import K439.Lib.Run

/-!
# The block allocator

`remNextAvail` and `addAvailBlk` work on the FAT, where the chains are threaded through one array.
What they stand for is `Blocks`, a list of free blocks and the lists of the blocks of the files
(`allocator_refines`).
-/

namespace K439.Fs

/-- The free blocks, in the order in which they are given away, and the blocks of every file. -/
structure Blocks where
  free : List Nat
  files : List (List Nat)

/-- A call, with the block that is returned or given back. -/
inductive AllocOp
  | remNextAvail (blk : Nat)
  | addAvailBlk (blk : Nat)

namespace Blocks

/-- All blocks of the chains. -/
def all (s : Blocks) : List Nat := s.free ++ s.files.flatten

/-- What the calls are for. A file is given back as a whole. -/
inductive Step : Blocks → AllocOp → Blocks → Prop
  | full {files : List (List Nat)} : Step ⟨[], files⟩ (.remNextAvail 0) ⟨[], files⟩
  | take {b : Nat} {free : List Nat} {files : List (List Nat)} :
      Step ⟨b :: free, files⟩ (.remNextAvail b) ⟨free, [b] :: files⟩
  | give {c free : List Nat} {files : List (List Nat)} (hc : c ∈ files) :
      Step ⟨free, files⟩ (.addAvailBlk (c.headD 0)) ⟨c ++ free, files.erase c⟩

variable {s s' : Blocks} {op : AllocOp} {ops : List AllocOp}

theorem Step.perm (h : Step s op s') : s'.all.Perm s.all := by
  cases h with
  | full => exact .refl _
  | take => exact List.perm_middle
  | @give c free files hc =>
    have hp : (c ++ (files.erase c).flatten).Perm files.flatten :=
      (List.perm_cons_erase hc).symm.flatten
    rw [all, all, List.append_assoc]
    exact List.perm_append_comm_assoc .. |>.trans (hp.append_left free)

/-- A file that is not given back stays as it is. -/
theorem Step.mem {c : List Nat} (h : Step s op s') (hc : c ∈ s.files)
    (hop : op ≠ .addAvailBlk (c.headD 0)) : c ∈ s'.files := by
  cases h with
  | full => exact hc
  | take => exact List.mem_cons_of_mem _ hc
  | give hc' => exact (List.mem_erase_of_ne (by rintro rfl; exact hop rfl)).mpr hc

end Blocks

/-- The calls on the FAT. -/
def Fat439.Alloc (fs : Fat439) : AllocOp → Fat439 → Prop
  | .remNextAvail blk, fs' => fs.remNextAvail = (blk, fs')
  | .addAvailBlk blk, fs' => fs.addAvailBlk blk = some fs'

/-- The chains of the FAT, which are acyclic and disjoint, are these lists. -/
structure Represents (fs : Fat439) (s : Blocks) : Prop where
  chains : Chains fs.fat 0 ((fs.super.avail, s.free) :: s.files.map fun c => (c.headD 0, c))
  ne_nil : ∀ c ∈ s.files, c ≠ []
  lt : ∀ x ∈ s.all, x < fs.super.nBlocks

namespace Represents

variable {fs fs' : Fat439} {s s' : Blocks} {free c : List Nat} {files : List (List Nat)} {b : Nat}
  {op : AllocOp}
  {ops : List AllocOp}

theorem remNextAvail_full (R : Represents fs ⟨[], files⟩) : fs.remNextAvail = (0, fs) := by
  have h0 : fs.super.avail = 0 := R.chains.head
  rw [Fat439.remNextAvail]
  dsimp only
  rw [if_pos h0]

theorem remNextAvail (R : Represents fs ⟨b :: free, files⟩) :
    ∃ fs', fs.remNextAvail = (b, fs') ∧ Represents fs' ⟨free, [b] :: files⟩ := by
  obtain ⟨hav, hb, -⟩ := R.chains.head
  have hrem : fs.remNextAvail = (b, { fs with super := { fs.super with avail := fs.fat b },
                                              fat := Function.update fs.fat b 0 }) := by
    rw [Fat439.remNextAvail]
    dsimp only
    rw [if_neg (hav ▸ hb), hav]
  refine ⟨_, hrem, R.chains.take, fun c hc => ?_, fun x hx => R.lt x ?_⟩
  · rcases List.mem_cons.mp hc with rfl | hc
    · exact List.cons_ne_nil _ _
    · exact R.ne_nil c hc
  · exact Blocks.Step.take.perm.mem_iff.mp hx

theorem addAvailBlk (R : Represents fs ⟨free, files⟩) (hc : c ∈ files) :
    ∃ fs', fs.addAvailBlk (c.headD 0) = some fs' ∧
    Represents fs' ⟨c ++ free, files.erase c⟩ := by
  have hperm :=
    ((List.perm_cons_erase hc).map fun c : List Nat => (c.headD 0, c)).cons (fs.super.avail, free)
  have hchains := R.chains.perm hperm
  obtain ⟨c', w, rfl⟩ : ∃ c' w, c = c' ++ [w] := by
    rcases c.eq_nil_or_concat with rfl | ⟨c', w, rfl⟩
    · exact absurd rfl (R.ne_nil _ hc)
    · exact ⟨c', w, List.concat_eq_append⟩
  -- the walk ends, as it visits different blocks
  have hlink : Linked fs.fat 0 ((c' ++ [w]).headD 0) (c' ++ [w]) := hchains.tail.head
  have hlt : ∀ z ∈ c' ++ [w], z < fs.super.nBlocks := fun z hz =>
    R.lt z (List.mem_append_right _ (List.mem_flatten.mpr ⟨_, hc, hz⟩))
  have hlen := hlink.length_le hlt
  rw [List.length_append, List.length_singleton] at hlen
  have hlast := lastBlk_of_linked hlink (show c'.length < fs.super.nBlocks + 1 by omega)
  have hadd : fs.addAvailBlk ((c' ++ [w]).headD 0) = some
      { fs with fat := Function.update fs.fat w fs.super.avail,
                super := { fs.super with avail := (c' ++ [w]).headD 0 } } := by
    rw [Fat439.addAvailBlk, hlast]
    rfl
  refine ⟨_, hadd, ?_, fun d hd => R.ne_nil d (List.mem_of_mem_erase hd), fun x hx => R.lt x ?_⟩
  · have hjoin := hchains.join
    rwa [List.append_assoc]
  · exact (Blocks.Step.give hc).perm.mem_iff.mp hx

theorem step (R : Represents fs s) (h : Blocks.Step s op s') :
    ∃ fs', fs.Alloc op fs' ∧ Represents fs' s' := by
  cases h with
  | full => exact ⟨fs, R.remNextAvail_full, R⟩
  | take => exact R.remNextAvail
  | give hc => exact R.addAvailBlk hc

theorem run (R : Represents fs s) (h : Run Blocks.Step s ops s') :
    ∃ fs', Run Fat439.Alloc fs ops fs' ∧ Represents fs' s' ∧ s'.all.Perm s.all ∧
      ∀ c ∈ s.files, .addAvailBlk (c.headD 0) ∉ ops → c ∈ s'.files := by
  induction h with
  | nil => exact ⟨fs, .nil, R, .refl _, fun c hc _ => hc⟩
  | snoc _ hstep ih =>
    obtain ⟨fs₁, hrun, R₁, hperm, hmem⟩ := ih
    obtain ⟨fs₂, halloc, R₂⟩ := R₁.step hstep
    refine ⟨fs₂, .snoc hrun halloc, R₂, hstep.perm.trans hperm, fun c hc hno => ?_⟩
    rw [List.mem_append, List.mem_singleton, not_or] at hno
    exact hstep.mem (hmem c hc hno.1) (Ne.symm hno.2)

end Represents

/-- **The block allocator refines a list.** -/
theorem allocator_refines {fs : Fat439} {free : List Nat} {files : List (List Nat)}
    (R : Represents fs ⟨free, files⟩) :
    (free = [] → fs.remNextAvail = (0, fs)) ∧
    (∀ b free', free = b :: free' →
      ∃ fs', fs.remNextAvail = (b, fs') ∧ Represents fs' ⟨free', [b] :: files⟩) ∧
    (∀ c ∈ files, ∃ fs', fs.addAvailBlk (c.headD 0) = some fs' ∧
      Represents fs' ⟨c ++ free, files.erase c⟩) ∧
    ∀ ops s', Run Blocks.Step ⟨free, files⟩ ops s' →
    ∃ fs', Run Fat439.Alloc fs ops fs' ∧
      Represents fs' s' ∧ s'.all.Perm (free ++ files.flatten) ∧
      ∀ c ∈ files, .addAvailBlk (c.headD 0) ∉ ops → c ∈ s'.files := by
  refine ⟨?_, ?_, fun c hc => R.addAvailBlk hc, fun ops s' h => R.run h⟩
  · rintro rfl
    exact R.remNextAvail_full
  · rintro b free' rfl
    exact R.remNextAvail

/-- The chains of an image are those of the file system that is made of it. -/
theorem Layout.represents {img : Image} {cs : List (List Nat)} {free : List Nat}
    (L : Layout img cs free) :
    Represents img.toFs ⟨free, cs⟩ where
  chains := by
    refine ⟨fun p hp => ?_, ?_⟩
    · rcases List.mem_cons.mp hp with rfl | hp
      · exact L.avail
      · obtain ⟨c, hc, rfl⟩ := List.mem_map.mp hp
        exact (L.chain c hc).2
    · have hmap : (cs.map fun c : List Nat => (c.headD 0, c)).flatMap (·.2) = cs.flatten := by
        rw [List.flatMap_map, List.flatMap_id']
      rw [List.flatMap_cons, hmap]
      exact List.perm_append_comm.nodup_iff.mp L.nodup
  ne_nil c hc := (L.chain c hc).1
  lt x hx := ((L.mem x).mp (List.perm_append_comm.mem_iff.mp hx)).2

theorem allocator_refines_byteImage :
    ∃ free files, Represents byteImage.toFs ⟨free, files⟩ ∧
    ∀ c ∈ files, ∃ fs', byteImage.toFs.addAvailBlk (c.headD 0) = some fs' ∧
      Represents fs' ⟨c ++ free, files.erase c⟩ := by
  obtain ⟨cs, free, B, -⟩ := mkfs_built (by decide) (by decide) (by decide) mkfs_byteImage
  exact ⟨free, _, B.layout.represents, (allocator_refines B.layout.represents).2.2.1⟩

end K439.Fs
