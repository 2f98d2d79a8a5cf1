import K439.Fs.Remount

/-!
# The walk over a chain ends

`addAvailBlk` follows the FAT until it finds a zero. No operation but a removal links blocks, and a
removal makes a cycle when the blocks it frees are already free.
-/

namespace K439.Fs

/-- Every chain of the FAT ends, and no link leaves the device. -/
structure Ends (fs : Fat439) : Prop where
  zero : fs.fat 0 = 0
  ends : ∀ x, ∃ l, Linked fs.fat 0 x l
  lt : ∀ x, fs.fat x < fs.super.nBlocks
  dom : ∀ x, fs.fat x ≠ 0 → x < fs.super.nBlocks
  avail : fs.super.avail < fs.super.nBlocks

/-- A removal that frees blocks frees blocks of the device that are not free. -/
def FreesOnce (m : Mount) : Op → Prop
  | .remove i entry entry' name => ∀ d, m.dirs[i]? = some d → Stops m.fs d entry entry' name ∨
      d.lookup m.fs entry name < m.fs.super.nBlocks ∧
        ∀ x, OnChain m.fs (d.lookup m.fs entry name) x → ¬OnChain m.fs m.fs.super.avail x
  | _ => True

namespace Ends

variable {fs fs' : Fat439} {m m' : Mount} {op : Op} {d : Fat439Directory} {buf : List UInt8}
  {blk next n fuel tot start : Nat}

theorem congr (E : Ends fs) (hfat : fs'.fat = fs.fat) (hsuper : fs'.super = fs.super) :
    Ends fs' := by
  obtain ⟨h0, h1, h2, h3, h4⟩ := E
  refine ⟨?_, ?_, ?_, ?_, ?_⟩
  · rw [hfat]; exact h0
  · rw [hfat]; exact h1
  · rw [hfat, hsuper]; exact h2
  · rw [hfat, hsuper]; exact h3
  · rw [hsuper]; exact h4

theorem pos (E : Ends fs) : 0 < fs.super.nBlocks := Nat.lt_of_le_of_lt (Nat.zero_le _) E.avail

/-- Links are cut. -/
theorem cut (E : Ends fs) (hcut : ∀ x, fs'.fat x = fs.fat x ∨ fs'.fat x = 0)
    (hn : fs'.super.nBlocks = fs.super.nBlocks) (hav : fs'.super.avail < fs.super.nBlocks) :
    Ends fs' := by
  refine ⟨?_, fun x => ?_, fun x => ?_, fun x hx => ?_, hn ▸ hav⟩
  · exact (hcut 0).elim (fun h => h.trans E.zero) id
  · obtain ⟨l, hl⟩ := E.ends x
    exact hl.cut hcut
  · rw [hn]
    rcases hcut x with h | h
    · rw [h]; exact E.lt x
    · rw [h]; exact E.pos
  · rw [hn]
    exact E.dom x fun h => (hcut x).elim (fun he => hx (he.trans h)) hx

/-! ## Taking blocks -/

theorem remNextAvail (E : Ends fs) :
    Ends fs.remNextAvail.2 ∧ fs.remNextAvail.2.fat fs.remNextAvail.1 = 0 := by
  rw [Fat439.remNextAvail]
  dsimp only
  split
  · exact ⟨E, E.zero⟩
  · refine ⟨E.cut (fun x => ?_) rfl (E.lt _), Function.update_self ..⟩
    dsimp only
    rcases Nat.decEq x fs.super.avail with hne | rfl
    · exact .inl (Function.update_of_ne hne ..)
    · exact .inr (Function.update_self ..)

theorem setNextBlk (E : Ends fs) (h : fs.fat next = 0) : Ends (fs.setNextBlk blk next) := by
  refine E.cut (fun x => ?_) rfl E.avail
  rw [Fat439.setNextBlk]
  dsimp only
  rcases Nat.decEq x blk with hne | rfl
  · exact .inl (Function.update_of_ne hne ..)
  · exact .inr ((Function.update_self ..).trans h)

theorem writeLoop (E : Ends fs) : Ends (OpenFile.writeLoop fuel fs blk buf tot).2.1 := by
  induction fuel generalizing fs blk buf tot with
  | zero => exact E
  | succ fuel ih =>
    -- a round goes on with the block that `blk` links to, or with a free one
    have hround : ∀ (x : Nat) (fs₁ : Fat439), Ends fs₁ →
        Ends (if x = 0 then (false, fs₁, tot)
          else OpenFile.writeLoop fuel
            { fs₁ with dev := (BlockDevice.write fs₁.dev (w32 (x * 512))
              (buf.take (min buf.length 512))).2 }
            x (buf.drop (BlockDevice.write fs₁.dev (w32 (x * 512))
              (buf.take (min buf.length 512))).1)
            (tot + (BlockDevice.write fs₁.dev (w32 (x * 512))
              (buf.take (min buf.length 512))).1)).2.1 := by
      intro x fs₁ h
      split
      · exact h
      · exact ih (h.congr rfl rfl)
    rw [OpenFile.writeLoop]
    split
    · rcases Nat.decEq (fs.fat blk) 0 with hne | heq
      · simp only [if_neg hne]
        have h := hround (fs.fat blk) fs E
        rwa [if_neg hne] at h
      · simp only [heq, if_true]
        exact hround _ _ (E.remNextAvail.1.setNextBlk E.remNextAvail.2)
    · exact E

theorem append (E : Ends fs) : Ends (OpenFile.append fs start buf).2 := by
  rw [OpenFile.append, OpenFile.write]
  dsimp only
  generalize BlockDevice.write fs.dev _ _ = r
  have hdev : Ends { fs with dev := r.2 } := E.congr rfl rfl
  have hloop : Ends (OpenFile.writeLoop buf.length { fs with dev := r.2 }
    (fs.fat^[w32 ((fs.metaData start).length + 16) / 512] start) (buf.drop r.1) r.1).2.1 :=
      hdev.writeLoop
  split
  · exact hloop.congr rfl rfl
  · exact hloop.congr rfl rfl

/-! ## Freeing blocks -/

/-- The walk from a block ends in as many steps as there are blocks. -/
theorem lastBlk (E : Ends fs) : (fs.lastBlk (fs.super.nBlocks + 1) blk).isSome = true := by
  obtain ⟨l, hl⟩ := E.ends blk
  rcases l.eq_nil_or_concat with rfl | ⟨c, last, rfl⟩
  · obtain rfl : blk = 0 := hl
    rw [Fat439.lastBlk, if_neg (not_not.mpr E.zero)]
    rfl
  · rw [List.concat_eq_append] at hl
    have hc : ∀ z ∈ c, z ∈ List.range fs.super.nBlocks := by
      intro z hz
      obtain ⟨l₁, l₂, rfl⟩ := List.append_of_mem hz
      rw [List.append_assoc, List.cons_append] at hl
      have hnext := hl.suffix.2.2
      refine List.mem_range.mpr (E.dom z fun h0 => ?_)
      have := hnext.eq_nil_iff.mp h0
      simp at this
    have hnd : c.Nodup := (List.nodup_append.mp hl.nodup).1
    have hle := (hnd.subperm hc).length_le
    rw [List.length_range] at hle
    rw [lastBlk_of_linked hl (by omega)]
    rfl

/-- Blocks that are not free are put in front of the free ones. -/
theorem addAvailBlk (E : Ends fs) (h0 : blk ≠ 0) (hlt : blk < fs.super.nBlocks)
    (hfree : ∀ x, OnChain fs blk x → ¬OnChain fs fs.super.avail x)
    (h : fs.addAvailBlk blk = some fs') : Ends fs' := by
  obtain ⟨last, hlast, rfl⟩ := Fat439.addAvailBlk_eq h
  obtain ⟨c, hc⟩ := lastBlk_linked hlast h0
  obtain ⟨free, hl⟩ := E.ends fs.super.avail
  have hlast0 : last ≠ 0 := hc.ne_nil (by simp)
  have hnot : last ∉ free := fun hm => hfree last ⟨_, hc, by simp⟩ ⟨_, hl, hm⟩
  have hin : last < fs.super.nBlocks :=
    hc.forall_mem (P := (· < fs.super.nBlocks)) (fun _ => hlt) (fun z _ => E.lt z) last (by simp)
  refine ⟨?_, fun x => ?_, fun x => ?_, fun x hx => ?_, hlt⟩
  · dsimp only
    rw [Function.update_of_ne hlast0.symm]; exact E.zero
  · obtain ⟨l, hlx⟩ := E.ends x
    exact hlx.splice hlast0 hl hnot (Function.update_self ..) fun z hz =>
      Function.update_of_ne hz ..
  · dsimp only
    rcases Nat.decEq x last with hne | rfl
    · rw [Function.update_of_ne hne]; exact E.lt x
    · rw [Function.update_self]; exact E.avail
  · dsimp only at hx
    rcases Nat.decEq x last with hne | rfl
    · rw [Function.update_of_ne hne] at hx; exact E.dom x hx
    · exact hin

/-- Blocks that are free already are linked in a cycle. -/
theorem addAvailBlk_cycle {x : Nat} (h0 : blk ≠ 0) (hx : OnChain fs blk x)
    (hfree : OnChain fs fs.super.avail x) (h : fs.addAvailBlk blk = some fs') {l : List Nat} :
    ¬Linked fs'.fat 0 fs'.super.avail l := by
  obtain ⟨last, hlast, rfl⟩ := Fat439.addAvailBlk_eq h
  obtain ⟨c, hc⟩ := lastBlk_linked hlast h0
  obtain ⟨c', hc', hxc⟩ := hx
  obtain rfl := hc'.unique hc
  obtain ⟨free, hl, hxl⟩ := hfree
  -- the last block of the chain is the last free one
  have hmem : last ∈ free := by
    obtain ⟨l₁, l₂, he⟩ := List.append_of_mem hxc
    obtain ⟨l₃, l₄, rfl⟩ := List.append_of_mem hxl
    have heq : x :: l₂ = x :: l₄ := (he ▸ hc).suffix.unique hl.suffix
    have hlast' : (l₁ ++ x :: l₂).getLast? = some last := by rw [← he, List.getLast?_concat]
    rw [List.getLast?_append_cons] at hlast'
    exact List.mem_append_right _ (heq ▸ List.mem_of_getLast? hlast')
  intro hcyc
  obtain ⟨l₂, rfl, h₂⟩ :=
    hc.unjoin hcyc (Function.update_self ..) fun z hz => Function.update_of_ne hz ..
  obtain rfl := h₂.unique hl
  exact (List.nodup_cons.mp (List.nodup_append.mp hcyc.nodup).2.1).1 hmem

/-- `remFromOffset` and `resize` leave the FAT as it is. -/
theorem remFromOffset {off k : Nat} {o : Outcome}
    (h : OpenFile.remFromOffset fs start off k = (o, fs')) :
    fs'.fat = fs.fat ∧ fs'.super = fs.super := by
  unfold OpenFile.remFromOffset at h
  dsimp only at h
  split at h
  · cases h; exact ⟨rfl, rfl⟩
  split at h
  · cases h; exact ⟨rfl, rfl⟩
  split at h
  · cases h; exact ⟨rfl, rfl⟩
  · cases h; exact ⟨rfl, rfl⟩

/-! ## Runs -/

theorem step (E : Ends m.fs) (hk : FreesOnce m op) (h : Step m op m') : Ends m'.fs := by
  cases h.effect with
  | same => exact E
  | opened => exact E.congr rfl rfl
  | openedFile => exact E.congr rfl rfl
  | openedDir => exact E.congr rfl rfl
  | closedFile => exact E.congr rfl rfl
  | closedDir => exact E
  | @made i d entry entry' name success fs' hop hd herr hav happ =>
    have htaken : Ends (d.taken m.fs) := E.remNextAvail.1.congr rfl rfl
    have happend : Ends (OpenFile.append (d.taken m.fs) d.start
      (Fat439Directory.newEntry entry' name m.fs.super.avail)).2 := htaken.append
    rw [happ] at happend
    exact happend
  | @freed i d entry entry' name fs₁ fs₂ hop hd h0 hobj hrem hadd =>
    subst hop
    have ht : m.target (.remove i entry entry' name) = d.lookup m.fs entry name := by
      rw [Mount.target, hd]; rfl
    rw [ht] at h0 hobj hrem hadd
    rcases hk d hd with hs | ⟨hlt, hfree⟩
    · exact absurd hrem (hs.not_freed h0 hobj)
    · obtain ⟨hfat, hsuper⟩ := Ends.remFromOffset hrem
      have E₁ : Ends (OpenFile.resize fs₁ (d.lookup m.fs entry name) 0) := E.congr hfat hsuper
      refine (E₁.addAvailBlk h0 ?_ ?_ hadd).congr rfl rfl
      · rw [OpenFile.resize_super, hsuper]; exact hlt
      · intro x hx
        rw [OnChain, OpenFile.resize_fat, hfat] at hx ⊢
        rw [OpenFile.resize_super, hsuper]
        exact hfree x hx

/-- A removal ends. -/
theorem remove (E : Ends fs) (entry entry' : Nat → UInt8) (name : List UInt8) :
    (d.remove fs entry entry' name).isSome = true := by
  rw [Fat439Directory.remove]
  dsimp only
  split
  · rfl
  split
  · rfl
  split
  · rfl
  split
  · rfl
  next code fs₁ hrem =>
    split
    · obtain ⟨hfat, hsuper⟩ := Ends.remFromOffset hrem
      have E₁ : Ends (OpenFile.resize fs₁ (d.lookup fs entry name) 0) := E.congr hfat hsuper
      have hsome : ((OpenFile.resize fs₁ (d.lookup fs entry name) 0).lastBlk _
        (d.lookup fs entry name)).isSome = true := E₁.lastBlk
      obtain ⟨last, hlast⟩ := Option.isSome_iff_exists.mp hsome
      rw [Fat439.addAvailBlk, hlast]
      rfl
    · rfl

theorem mounted {n : Nat} {files : List HostFile} (h : Mounted n files m) (hn : n ≤ 0x800000)
    (hroom : 1 + fatBlocks n < n) : Ends m.fs := by
  obtain ⟨img, himg, hm⟩ := h
  obtain ⟨cs, free, L, rfl⟩ := mkfs_layout hn hroom himg
  obtain ⟨fs, hfs, rfl⟩ := mount_eq hm
  rw [L.create_toDev hn] at hfs
  cases hfs
  have hpos : 0 < img.nBlocks := by omega
  have hout : ∀ x, img.fat x ≠ 0 → InArea img.nBlocks x :=
    fun x hx => not_not.mp fun hx' => hx (L.out x hx')
  have hzero : img.fat 0 = 0 := L.out 0 fun h => absurd h.1 (by omega)
  refine ⟨hzero, fun x => ?_, fun x => L.fat_lt x hpos, fun x hx => (hout x hx).2,
    L.avail_lt hpos⟩
  rcases Nat.decEq (img.fat x) 0 with hne | h0
  · rcases List.mem_append.mp ((L.mem x).mpr (hout x hne)) with hx | hx
    · obtain ⟨c, hc, hx⟩ := List.mem_flatten.mp hx
      obtain ⟨l₁, l₂, rfl⟩ := List.append_of_mem hx
      exact ⟨_, (L.chain _ hc).2.suffix⟩
    · obtain ⟨l₁, l₂, rfl⟩ := List.append_of_mem hx
      exact ⟨_, L.avail.suffix⟩
  · rcases Nat.eq_zero_or_pos x with rfl | hx
    · exact ⟨[], rfl⟩
    · exact ⟨[x], rfl, Nat.pos_iff_ne_zero.mp hx, h0⟩

end Ends

variable {n : Nat} {files : List HostFile} {m m' : Mount} {ops : List Op}

/-- In a run whose removals free no block that is free, every chain of the FAT ends, and every
further removal does. -/
theorem removals_end (hn : n ≤ 0x800000) (hroom : 1 + fatBlocks n < n) (hm : Mounted n files m)
    (hr : Run (Run.Within Step FreesOnce) m ops m') :
    (∀ x, ∃ l, Linked m'.fs.fat 0 x l) ∧
      ∀ d ∈ m'.dirs, ∀ entry entry' name, (d.remove m'.fs entry entry' name).isSome =
      true := by
  have E : Ends m'.fs := hr.inv_of (I := fun m => Ends m.fs) (fun _ _ _ hI hk hs => hI.step hk hs)
    (Ends.mounted hm hn hroom)
  exact ⟨E.ends, fun d _ entry entry' name => E.remove entry entry' name⟩

/-- The removal of "a" does not stop, and its block is free neither before nor on the root's
chain. -/
theorem removeByteFile_freesOnce : FreesOnce byteMount removeByteFile := by
  intro d hd
  obtain rfl : ⟨7, 1⟩ = d :=
    Option.some.inj ((show byteMount.dirs[0]? = some ⟨7, 1⟩ by decide).symm.trans hd)
  have hlook : Fat439Directory.lookup byteMount.fs ⟨7, 1⟩ (fun _ => 0) [0x61] = 6 := by decide
  have h6 : Linked byteMount.fs.fat 0 6 [6] := by simp only [Linked]; decide
  have hav : Linked byteMount.fs.fat 0 byteMount.fs.super.avail [5, 4, 3, 2] := by
    simp only [Linked]; decide
  refine .inr ⟨by rw [hlook]; decide, fun x hx => ?_⟩
  rw [hlook, onChain_iff h6, List.mem_singleton] at hx
  rw [hx, onChain_iff hav]
  decide

theorem removals_end_remove :
    ∃ m', Run (Run.Within Step FreesOnce) byteMount [removeByteFile] m' ∧
    (∀ x, ∃ l, Linked m'.fs.fat 0 x l) ∧
      ∀ d ∈ m'.dirs, ∀ entry entry' name, (d.remove m'.fs entry entry' name).isSome =
      true := by
  have hstep := Step.of_isSome removeByteFile_isSome
  have hrun : Run (Run.Within Step FreesOnce) byteMount [removeByteFile] _ :=
    .single ⟨hstep, removeByteFile_freesOnce⟩
  exact ⟨_, hrun, removals_end (by decide) (by decide) mounted_byteMount hrun⟩

/-- "a" is removed twice: the first removal leaves the entry, the second one makes a cycle of the
free blocks, and the walk of the next one does not end. -/
theorem removal_cycle : Mounted 8 [byteFile] byteMount ∧
    ∃ m', Run Step byteMount [removeByteFile, removeByteFile] m' ∧
      (∀ l, ¬Linked m'.fs.fat 0 m'.fs.super.avail l) ∧ m'.fs.addAvailBlk 6 = none := by
  obtain ⟨⟨r, m₁⟩, hm₁⟩ := Option.isSome_iff_exists.mp removeByteFile_isSome
  have hstep₁ : Step byteMount removeByteFile m₁ := ⟨r, hm₁⟩
  have E : Ends m₁.fs :=
    (Ends.mounted mounted_byteMount (by decide) (by decide)).step removeByteFile_freesOnce hstep₁
  have hdirs : (byteMount.step removeByteFile).map (·.2.dirs) = some [⟨7, 2⟩] := by
    decide +kernel
  have hlook : (byteMount.step removeByteFile).map (fun r =>
      Fat439Directory.lookup r.2.fs ⟨7, 2⟩ (fun _ => 0) [0x61]) = some 6 := by decide +kernel
  have htype : (byteMount.step removeByteFile).map (fun r => (r.2.fs.metaData 6).type) =
      some TYPE_FILE := by decide +kernel
  have hlen : (byteMount.step removeByteFile).map (fun r => (r.2.fs.metaData 7).length) =
      some 32 := by
    decide +kernel
  have hentry : (byteMount.step removeByteFile).map (fun r =>
      Fat439Directory.lookupEntry r.2.fs ⟨7, 2⟩ (fun _ => 0) [0x61]) = some 1 := by
        decide +kernel
  have hav : (byteMount.step removeByteFile).map (·.2.fs.super.avail) = some 6 := by decide +kernel
  rw [hm₁, Option.map_some, Option.some.injEq] at hdirs hlook htype hlen hentry hav
  dsimp only at hdirs hlook htype hlen hentry hav
  have hnot : ¬Stops m₁.fs ⟨7, 2⟩ (fun _ => 0) (fun _ => 0) [0x61] := by
    rintro (h | ⟨h, -⟩ | ⟨-, h, -⟩)
    · rw [hlook] at h
      cases h
    · rw [hlook, htype] at h
      cases h
    · rw [hlen, hentry] at h
      exact absurd h (by decide)
  -- the second removal
  obtain ⟨⟨o, d', fs'⟩, hremove⟩ := Option.isSome_iff_exists.mp
    (E.remove (d := ⟨7, 2⟩) (fun _ => 0) (fun _ => 0) [0x61])
  have hstep₂ : Step m₁ removeByteFile { m₁ with fs := fs', dirs := m₁.dirs.set 0 d' } := by
    refine ⟨o, ?_⟩
    rw [removeByteFile, Mount.step, hdirs]
    simp [hremove]
  obtain ⟨-, fs₁, fs₂, hrem, hadd, rfl⟩ := Stops.freed hnot hremove
  obtain ⟨hfat, hsuper⟩ := Ends.remFromOffset hrem
  rw [hlook] at hadd
  have E₁ : Ends (OpenFile.resize fs₁ 6 0) := E.congr hfat hsuper
  have hon : OnChain (OpenFile.resize fs₁ 6 0) 6 6 := by
    obtain ⟨l, hl⟩ := E₁.ends 6
    exact OnChain.head hl (by decide)
  have hfree : OnChain (OpenFile.resize fs₁ 6 0) (OpenFile.resize fs₁ 6 0).super.avail 6 := by
    rwa [OpenFile.resize_super, hsuper, show (m₁.fs.openFile _).super.avail = 6 from hav]
  have hcycle : ∀ l, ¬Linked fs₂.fat 0 fs₂.super.avail l := fun l =>
    Ends.addAvailBlk_cycle (by decide) hon hfree hadd
  refine ⟨mounted_byteMount, _, (Run.single hstep₁).trans (.single hstep₂), hcycle, ?_⟩
  rcases h : Fat439.lastBlk fs₂.sync (fs₂.sync.super.nBlocks + 1) 6 with _ | last
  · rw [Fat439.addAvailBlk, h]
    rfl
  · obtain ⟨c, hc⟩ := lastBlk_linked h (by decide)
    obtain ⟨_, -, rfl⟩ := Fat439.addAvailBlk_eq hadd
    exact absurd hc (hcycle _)

end K439.Fs
