import K439.Fs.Fat
import Mathlib.Data.List.Perm.Subperm

/-!
# Writing to a file

What `OpenFile::write` does in a state whose chains are acyclic and disjoint, and when that is the
update of the byte string that the file stands for. The length always grows by the size of the
buffer, and the entry of a new block is never linked to the chain; a first segment that would start
at the end of the first block is not written, and its bytes go one block too far.
-/

namespace K439.Fs

variable {fs fs' : Fat439} {s t offset fuel blk tot : Nat} {b c buf : List UInt8}
  {rest free bs : List Nat}

/-- `c` is the file that starts at the block `s`: its chain holds the header and then `c`. -/
def Contents (fs : Fat439) (s : Nat) (c : List UInt8) : Prop :=
  ∃ bs, Linked fs.fat 0 s bs ∧ 16 + c.length ≤ 512 * bs.length ∧
    (header fs.dev s).length = c.length ∧ slice (view 512 fs.dev bs) 16 c.length = c

/-- The bytes `c` with `b` written at `offset`. -/
def overwrite (c : List UInt8) (offset : Nat) (b : List UInt8) : List UInt8 :=
  c.take offset ++ b ++ c.drop (offset + b.length)

/-- From `fs` to `fs'` the file at `s` was updated as a byte string, and nothing else. -/
structure Refines (fs fs' : Fat439) (files : Nat → Prop) (s offset : Nat)
    (b c : List UInt8) : Prop where
  metaData : fs'.metaData s = { fs.metaData s with length := max c.length (offset + b.length) }
  header : header fs'.dev s = { header fs.dev s with length := max c.length (offset + b.length) }
  contents : Contents fs' s (overwrite c offset b)
  super : slice fs'.dev 0 512 = slice fs.dev 0 512
  others : ∀ t, files t → t ≠ s → ∀ c, Contents fs t c → Contents fs' t c

/-- The chains of the files and of the free blocks are acyclic and disjoint, and the headers of the
open files are those on the device, which `uint32_t` offsets reach. -/
structure WellFormed (fs : Fat439) (files : Nat → Prop) (chain : Nat → List Nat)
    (free : List Nat) :
    Prop where
  size : fs.super.nBlocks ≤ 0x800000
  zero : fs.fat 0 = 0
  avail : Linked fs.fat 0 fs.super.avail free
  file : ∀ s, files s → Linked fs.fat 0 s (chain s)
  free_lt : ∀ x ∈ free, x < fs.super.nBlocks
  file_lt : ∀ s, files s → ∀ x ∈ chain s, x < fs.super.nBlocks
  file_free : ∀ s, files s → ∀ x ∈ chain s, x ∉ free
  file_file : ∀ s t, files s → files t → s ≠ t → ∀ x ∈ chain s, x ∉ chain t
  header : ∀ s o, files s → fs.openFiles s = some o → o.metaData = header fs.dev s

theorem writeLoop_spec (hr : Linked fs.fat 0 (fs.fat blk) rest)
    (hf : Linked fs.fat 0 fs.super.avail free) (hrf : ∀ x ∈ rest, x ∉ free)
    (hb : blk ∉ free) (hlt : ∀ x ∈ rest ++ free, x < 0x800000)
    (hl : buf.length ≤ 512 * (rest.length + free.length)) (hfuel : buf.length ≤ fuel) :
    ∃ fs', OpenFile.writeLoop fuel fs blk buf tot = (true, fs', tot + buf.length) ∧
      fs'.dev = scatter 512 fs.dev (rest ++ free) buf ∧ fs'.openFiles = fs.openFiles ∧
      ∀ x, x ∉ free → fs'.fat x = fs.fat x := by
  induction fuel generalizing fs blk buf tot rest free with
  | zero =>
    obtain rfl := List.length_eq_zero_iff.mp (Nat.le_zero.mp hfuel)
    exact ⟨fs, rfl, by simp, rfl, fun x _ => rfl⟩
  | succ fuel ih =>
    rcases Nat.eq_zero_or_pos buf.length with h0 | h0
    · obtain rfl := List.length_eq_zero_iff.mp h0
      exact ⟨fs, rfl, by simp, rfl, fun x _ => rfl⟩
    -- one round writes the next 512 bytes to the block `r`
    have hround : ∀ (fs : Fat439) (r : Nat), r < 0x800000 →
        BlockDevice.write fs.dev (w32 (r * 512)) (buf.take (min buf.length 512)) =
          (min buf.length 512, put fs.dev (r * 512) (buf.take 512)) := by
      intro fs r hr
      have ht : buf.take (min buf.length 512) = buf.take 512 := by
        rw [List.take_eq_take_iff]; omega
      rw [w32_of_lt (by omega), ht,
        BlockDevice.write_eq_of_le (by rw [Nat.mul_mod_left, List.length_take]; omega),
          List.length_take,
        Nat.min_comm]
    have hdrop : buf.drop (min buf.length 512) = buf.drop 512 := by
      rw [List.drop_eq_drop_iff]; omega
    have htot : ∀ n, tot + min buf.length 512 + (buf.drop 512).length = n ↔
        tot + buf.length = n := by
      intro n; rw [List.length_drop]; omega
    rw [OpenFile.writeLoop, if_pos h0]
    cases rest with
    | cons r rest =>
      obtain ⟨hblk, hr0, hr⟩ := hr
      have := hlt r (by simp)
      rw [hblk] at *
      simp only [if_neg hr0, hround fs r this, hdrop]
      obtain ⟨fs', he, hdev, hopen, hfat⟩ :=
        @ih { fs with dev := put fs.dev (r * 512) (buf.take 512) }
        r (tot + min buf.length 512) (buf.drop 512) rest free hr hf
        (fun x hx => hrf x (by simp [hx])) (hrf r (by simp))
        (fun x hx => hlt x (by simp at hx ⊢; tauto)) (by simp at hl ⊢; omega) (by simp; omega)
      refine ⟨fs', ?_, ?_, hopen, hfat⟩
      · rw [he, (htot _).mpr rfl]
      · rw [hdev]; rfl
    | nil =>
      -- the chain ends: a free block is taken, which stays unlinked
      have hblk : fs.fat blk = 0 := hr
      obtain ⟨f, free, rfl⟩ : ∃ f l, free = f :: l := by
        cases free with
        | nil => simp only [List.length_nil, Nat.add_zero, Nat.mul_zero] at hl; omega
        | cons f l => exact ⟨f, l, rfl⟩
      obtain ⟨hav, hf0, hf⟩ := hf
      have hff : f ∉ free := (List.nodup_cons.mp (Linked.nodup ⟨hav, hf0, hf⟩)).1
      have := hlt f (by simp)
      rw [List.mem_cons, not_or] at hb
      simp only [hblk, if_pos, Fat439.remNextAvail, hav, if_neg hf0, Fat439.setNextBlk,
        hround _ f this, hdrop]
      rw [Function.update_self]
      generalize hfat2 : Function.update (Function.update fs.fat f 0) blk 0 = fat2
      have hfat2_of : ∀ x, x ≠ f → fat2 x = fs.fat x := by
        intro x hx
        subst hfat2
        by_cases hxb : x = blk
        · rw [hxb, Function.update_self, hblk]
        · rw [Function.update_of_ne hxb, Function.update_of_ne hx]
      have hfat2_f : fat2 f = 0 := by
        rw [← hfat2, Function.update_of_ne (Ne.symm hb.1), Function.update_self]
      obtain ⟨fs', he, hdev, hopen, hfat⟩ := @ih
        { fs with dev := put fs.dev (f * 512) (buf.take 512), fat := fat2,
                  super := { fs.super with avail := fs.fat f } }
        f (tot + min buf.length 512) (buf.drop 512) [] free hfat2_f
        (hf.congr fun z hz => hfat2_of z fun h => hff (h ▸ hz)) (by simp) hff
        (fun x hx => hlt x (by simp at hx ⊢; tauto)) (by simp at hl ⊢; omega) (by simp; omega)
      refine ⟨fs', ?_, ?_, hopen, fun x hx => ?_⟩
      · rw [he, (htot _).mpr rfl]
      · rw [hdev]; rfl
      · rw [List.mem_cons, not_or] at hx
        exact (hfat x hx.2).trans (hfat2_of x hx.1)

namespace WellFormed

variable {files : Nat → Prop} {chain : Nat → List Nat} (W : WellFormed fs files chain free)
  (hs : files s)
include W hs

theorem chain_ne_zero {x : Nat} (hx : x ∈ chain s) : x ≠ 0 := (W.file s hs).ne_nil hx

theorem nodup : (chain s ++ free).Nodup :=
  List.nodup_append.mpr ⟨(W.file s hs).nodup, W.avail.nodup,
    fun x hx _ hy h => W.file_free s hs x hx (h ▸ hy)⟩

/-- The blocks of a file, the free blocks and the superblock fit on the device. -/
theorem length_lt (hne : chain s ≠ []) :
    (chain s).length + free.length < fs.super.nBlocks := by
  have hpos : 0 < fs.super.nBlocks := by
    obtain ⟨x, hx⟩ := List.exists_mem_of_ne_nil _ hne
    exact Nat.zero_lt_of_lt (W.file_lt s hs x hx)
  have hsub : 0 :: (chain s ++ free) ⊆ List.range fs.super.nBlocks := by
    intro x hx
    simp only [List.mem_cons, List.mem_append] at hx
    rw [List.mem_range]
    rcases hx with rfl | hx | hx
    exacts [hpos, W.file_lt s hs x hx, W.free_lt x hx]
  have hnd : (0 :: (chain s ++ free)).Nodup := by
    refine List.nodup_cons.mpr ⟨fun h => ?_, W.nodup hs⟩
    rcases List.mem_append.mp h with h | h
    · exact W.chain_ne_zero hs h rfl
    · exact W.avail.ne_nil h rfl
  have h := (hnd.subperm hsub).length_le
  simp only [List.length_cons, List.length_append, List.length_range] at h
  omega

theorem chain_eq (h : Linked fs.fat 0 s bs) : bs = chain s := h.unique (W.file s hs)

theorem length_le (hc : Contents fs s c) : 16 + c.length ≤ 512 * (chain s).length := by
  obtain ⟨bs, hbs, hle, -⟩ := hc
  rwa [W.chain_eq hs hbs] at hle

/-- The chain of a file does not change when the entries of free blocks do. -/
theorem linked (hfat : ∀ x, x ∉ free → fs'.fat x = fs.fat x) : Linked fs'.fat 0 s (chain s) :=
  (W.file s hs).congr fun x hx => hfat x (W.file_free s hs x hx)

theorem chain_ne_nil (hc : Contents fs s c) : chain s ≠ [] := by
  intro h
  have := W.length_le hs hc
  simp [h] at this

theorem ne_zero (hc : Contents fs s c) : s ≠ 0 :=
  fun h => W.chain_ne_nil hs hc ((W.file s hs).eq_nil_iff.mp h)

/-- Neither the new length nor a byte offset wraps around. -/
theorem size_lt (hc : Contents fs s c) (hfree : b.length ≤ 512 * free.length) :
    16 + c.length + b.length + 512 ≤ 0x100000000 := by
  have h1 := W.length_lt hs (W.chain_ne_nil hs hc)
  have h2 := W.length_le hs hc
  have h3 := W.size
  omega

end WellFormed

/-- The bytes of the buffer that the first segment of a write at `offset` takes. -/
def firstSegment (offset : Nat) (b : List UInt8) : Nat :=
  if offset = 496 then 0 else min b.length (512 - (offset + 16) % 512)

/-- The device after a write to the file with the blocks `chain`: the first segment goes to the
block of the offset, the rest over the blocks that follow in the chain and then over free blocks,
and `h` is the new header. -/
def writtenDev (fs : Fat439) (chain free : List Nat) (s offset : Nat) (b : List UInt8)
    (h : MetaData) : Dev :=
  put (scatter 512
    (put fs.dev (chain.getD ((offset + 16) / 512) 0 * 512 + (offset + 16) % 512)
      (b.take (firstSegment offset b)))
    (chain.drop ((offset + 16) / 512 + 1) ++ free) (b.drop (firstSegment offset b)))
    (s * 512) h.bytes

section

variable {files : Nat → Prop} {chain : Nat → List Nat}

/-- The length grows by the size of the buffer, and no chain of a file is extended. -/
theorem write_spec (W : WellFormed fs files chain free) (hs : files s) (hc : Contents fs s c)
    {o : OpenFile} (hopen : fs.openFiles s = some o) (ho : offset ≤ c.length)
    (hfree : b.length ≤ 512 * free.length) :
    ∃ fs', OpenFile.write fs s offset b = (0, fs') ∧
      fs'.metaData s = { fs.metaData s with length := c.length + b.length } ∧
      (∀ t, t ≠ s → fs'.openFiles t = fs.openFiles t) ∧
      (∀ x, x ∉ free → fs'.fat x = fs.fat x) ∧
      fs'.dev = writtenDev fs (chain s) free s offset b
        { fs.metaData s with length := c.length + b.length } := by
  unfold writtenDev
  have hsize := W.size_lt hs hc hfree
  have hle := W.length_le hs hc
  have hk : (offset + 16) / 512 ≤ (chain s).length := by omega
  generalize hblk : (chain s).getD ((offset + 16) / 512) 0 = blk
  generalize hrest : (chain s).drop ((offset + 16) / 512 + 1) = rest
  have hnB := W.size
  have hlen : (fs.metaData s).length = c.length := by
    obtain ⟨_, -, -, hl, -⟩ := hc
    rw [Fat439.metaData, Fat439.fileAt_eq hopen, W.header s o hs hopen, hl]
  have hs_lt : s * 512 < 0x100000000 := by
    obtain ⟨l, hl⟩ := (W.file s hs).head_mem (W.ne_zero hs hc)
    have := W.file_lt s hs s (hl ▸ List.mem_cons_self)
    omega
  have hblk_mem : blk ∈ chain s ∨ blk = 0 ∧ rest = [] := by
    rcases Nat.lt_or_eq_of_le hk with h | h
    · left; rw [← hblk, List.getD_eq_getElem?_getD, List.getElem?_eq_getElem h]
      exact List.getElem_mem h
    · right; rw [← hblk, ← hrest, h]; simp
  have hblk_lt : blk < 0x800000 := by
    rcases hblk_mem with h | ⟨h, -⟩
    · exact Nat.lt_of_lt_of_le (W.file_lt s hs _ h) hnB
    · omega
  have hblk_free : blk ∉ free := by
    rcases hblk_mem with h | ⟨rfl, -⟩
    · exact W.file_free s hs _ h
    · exact fun h => W.avail.ne_nil h rfl
  have hrest_mem : ∀ x ∈ rest, x ∈ chain s := fun x hx => List.mem_of_mem_drop (hrest ▸ hx)
  have hrest_linked : Linked fs.fat 0 (fs.fat blk) rest := by
    rcases Nat.lt_or_eq_of_le hk with h | h
    · have := (W.file s hs).drop h
      rwa [hrest, show (chain s)[(offset + 16) / 512] = blk by rw [← hblk]; simp [h]] at this
    · rw [← hblk, ← hrest, h, List.drop_of_length_le (by omega)]
      simp [W.zero, Linked]
  -- the first segment
  have hfirst : BlockDevice.write fs.dev (w32 (blk * 512 + (offset + 16) % 512))
      (b.take (min b.length (w32 (0x100000000 + 512 - (offset + 16))))) =
      (firstSegment offset b, put fs.dev (blk * 512 + (offset + 16) % 512)
        (b.take (firstSegment offset b))) := by
    have hmod : (blk * 512 + (offset + 16) % 512) % 512 = (offset + 16) % 512 := by omega
    have hn : min (min b.length (w32 (0x100000000 + 512 - (offset + 16))))
        (512 - (offset + 16) % 512) = firstSegment offset b := by
      unfold firstSegment w32
      split <;> omega
    have haddr := addr_lt hblk_lt (Nat.mod_lt (offset + 16) (show 512 > 0 by simp))
    rw [w32_of_lt haddr, BlockDevice.write_eq, hmod, List.length_take, Nat.min_comm _ b.length,
      ← Nat.min_assoc, Nat.min_self, hn, List.take_take, Nat.min_comm (512 - _), hn]
  obtain ⟨fs', he, hdev, hopen', hfat⟩ := @writeLoop_spec
    { fs with dev := put fs.dev (blk * 512 + (offset + 16) % 512) (b.take (firstSegment offset b)) }
    b.length blk (firstSegment offset b) (b.drop (firstSegment offset b)) rest free hrest_linked
    W.avail (fun x hx => W.file_free s hs x (hrest_mem x hx)) hblk_free
    (by
      intro x hx
      rcases List.mem_append.mp hx with hx | hx
      · exact Nat.lt_of_lt_of_le (W.file_lt s hs x (hrest_mem x hx)) hnB
      · exact Nat.lt_of_lt_of_le (W.free_lt x hx) hnB)
    (by rw [List.length_drop]; omega) (by simp)
  have hmeta : fs'.metaData s = fs.metaData s := by
    rw [Fat439.metaData, Fat439.metaData, Fat439.fileAt_eq hopen]
    rw [Fat439.fileAt_eq (hopen' ▸ hopen)]
  refine ⟨OpenFile.resize fs' s (c.length + b.length), ?_, ?_, ?_, hfat, ?_⟩
  · have hw : w32 (offset + 16) = offset + 16 := w32_of_lt (by omega)
    rw [OpenFile.write]
    have htot : firstSegment offset b + (b.drop (firstSegment offset b)).length = b.length := by
      have : firstSegment offset b ≤ b.length := by
        unfold firstSegment
        split <;> omega
      rw [List.length_drop]
      omega
    rw [htot] at he
    simp only [hw, (W.file s hs).iterate_getD hk, hblk, hfirst, he, hmeta, hlen, if_pos]
    rw [w32_of_lt (by omega)]
  · rw [OpenFile.resize_metaData, hmeta]
  · intro t ht
    rw [OpenFile.resize_openFiles_of_ne ht, hopen']
  · rw [OpenFile.resize_dev, hdev, hmeta, w32_of_lt hs_lt]

theorem writtenDev_of_notMem {l : List Nat} {h : MetaData} {x i : Nat} (hs : s ∈ l) (hx : x ∉ l)
    (hf : x ∉ free) (hblk : x ≠ l.getD ((offset + 16) / 512) 0) (hi : i < 512) :
    writtenDev fs l free s offset b h (x * 512 + i) = fs.dev (x * 512 + i) := by
  have hxs : x ≠ s := fun he => hx (he ▸ hs)
  have hxm : x ∉ l.drop ((offset + 16) / 512 + 1) ++ free := fun he =>
    (List.mem_append.mp he).elim (fun he => hx (List.mem_of_mem_drop he)) hf
  have hseg : (offset + 16) % 512 + (b.take (firstSegment offset b)).length ≤ 512 := by
    rw [List.length_take, firstSegment]
    split <;> omega
  rw [writtenDev, put_block_start_ne hxs hi (by simp), scatter_of_notMem hxm hi]
  exact put_block_ne hblk hi hseg

/-- What the file holds after the write, when its chain reaches the offset. -/
theorem view_writtenDev {l : List Nat} {h : MetaData} {p : Nat} (hd : (s :: l).Nodup)
    (hf : ∀ x ∈ free, x ∉ s :: l) (hk : (offset + 16) / 512 < (s :: l).length) (hp : 16 ≤ p)
    (hpl : p / 512 < (s :: l).length) :
    view 512 (writtenDev fs (s :: l) free s offset b h) (s :: l) p =
      put (put (view 512 fs.dev (s :: l)) (offset + 16) (b.take (firstSegment offset b)))
        (((offset + 16) / 512 + 1) * 512)
        ((b.drop (firstSegment offset b)).take
          (((s :: l).length - ((offset + 16) / 512 + 1)) * 512)) p := by
  generalize hc : s :: l = chain at *
  have hseg : (offset + 16) % 512 + (b.take (firstSegment offset b)).length ≤ 512 := by
    rw [List.length_take, firstSegment]
    split <;> omega
  have hsplit : chain.take ((offset + 16) / 512 + 1) ++ chain.drop ((offset + 16) / 512 + 1) =
      chain :=
    List.take_append_drop ..
  have hpre : (chain.take ((offset + 16) / 512 + 1)).length = (offset + 16) / 512 + 1 := by
    rw [List.length_take]; omega
  have hblk : chain.getD ((offset + 16) / 512) 0 = chain[(offset + 16) / 512] := by simp [hk]
  have hfirst := view_put (m := fs.dev) hd (by simp) hk hseg hpl
  have hrest := view_scatter
    (m := put fs.dev (chain[(offset + 16) / 512] * 512 + (offset + 16) % 512)
      (b.take (firstSegment offset b))) (l := b.drop (firstSegment offset b))
    (hsplit.symm ▸ hd) (hsplit.symm ▸ hf) (show 0 < 512 by simp) (hsplit.symm ▸ hpl)
  rw [hsplit, hpre, List.length_drop] at hrest
  have hhdr (m : Dev) :=
    view_put (m := m) (l := h.bytes) (q := 0) hd (by simp) (by omega) (by simp) hpl
  have hlt : 0 / 512 < chain.length := by omega
  have h0 : chain[0 / 512] = s := by subst hc; rfl
  simp only [h0, Nat.zero_mod, Nat.add_zero] at hhdr
  rw [writtenDev, hblk, hhdr, put_of_le (by simpa using hp), hrest]
  exact put_congr hfirst

section Append

variable {l : List Nat} {h : MetaData} (hd : (s :: l).Nodup) (hf : ∀ x ∈ free, x ∉ s :: l)
  (hc : slice (view 512 fs.dev (s :: l)) 16 c.length = c)
  (hcover : 16 + c.length + b.length ≤ 512 * (s :: l).length) (hb : b ≠ [])
include hd hf hc hcover hb

/-- An append that fits in the chain and does not start at the end of the first block. -/
theorem slice_append (h496 : c.length ≠ 496) :
    slice (view 512 (writtenDev fs (s :: l) free s c.length b h) (s :: l)) 16
      (c.length + b.length) = c ++ b := by
  have hb0 := List.length_pos_iff.mpr hb
  generalize hn : firstSegment c.length b = n
  have hn' : n = min b.length (512 - (c.length + 16) % 512) := by
    rw [← hn, firstSegment, if_neg h496]
  have hput : ∀ v : Nat → UInt8, put (put v (c.length + 16) (b.take n))
      (((c.length + 16) / 512 + 1) * 512)
      ((b.drop n).take (((s :: l).length - ((c.length + 16) / 512 + 1)) * 512)) =
      put v (16 + c.length) b := by
    intro v
    have htk : (b.drop n).take (((s :: l).length - ((c.length + 16) / 512 + 1)) * 512) = b.drop n :=
      List.take_of_length_le (by rw [List.length_drop]; omega)
    rw [htk, Nat.add_comm 16]
    rcases Nat.lt_or_ge n b.length with h | h
    · have hend : ((c.length + 16) / 512 + 1) * 512 = c.length + 16 + (b.take n).length := by
        rw [List.length_take]; omega
      rw [hend, put_put, List.take_append_drop]
    · rw [List.drop_of_length_le h, put_nil, List.take_of_length_le h]
  calc slice (view 512 (writtenDev fs (s :: l) free s c.length b h) (s :: l)) 16
        (c.length + b.length)
      = slice (put (view 512 fs.dev (s :: l)) (16 + c.length) b) 16 (c.length + b.length) := by
        refine slice_congr fun i hi => ?_
        rw [view_writtenDev hd hf (by omega) (by omega) (by omega), hn, hput]
    _ = c ++ b := by rw [slice_put_append, hc]

/-- An append at the end of the first block leaves out the second one. -/
theorem slice_append_of_eq {r : Nat} {l' : List Nat} (hl : l = r :: l') (h496 : c.length = 496) :
    slice (view 512 (writtenDev fs (s :: l) free s c.length b h) (s :: l)) 16
      (c.length + b.length) = c ++ (slice fs.dev (r * 512) 512 ++ b).take b.length := by
  have hn : firstSegment c.length b = 0 := if_pos h496
  have hb0 := List.length_pos_iff.mpr hb
  obtain ⟨v, hv⟩ : ∃ v, view 512 fs.dev (s :: l) = v := ⟨_, rfl⟩
  obtain ⟨j, hj⟩ : ∃ j, ((s :: l).length - (1 + 1)) * 512 = j := ⟨_, rfl⟩
  rw [hv] at hc
  have hsecond : slice v 512 512 = slice fs.dev (r * 512) 512 := by
    refine slice_congr fun i hi => ?_
    have h1 : (512 + i) / 512 = 1 := by omega
    have h2 : (512 + i) % 512 = i := by omega
    rw [← hv, hl, view, h1, h2]
    rfl
  have htk : slice (put v 1024 (b.take j)) 512 b.length = (slice v 512 512 ++ b).take b.length := by
    have happ : slice (put v (512 + 512) (b.take j)) 512 (512 + (b.take j).length) = _ :=
      slice_put_append
    rw [← slice_take (show b.length ≤ 512 + (b.take j).length by rw [List.length_take]; omega)]
    rw [happ, List.take_append, List.take_append, slice_length, List.take_take,
      Nat.min_eq_left (show b.length - 512 ≤ j by omega)]
  calc slice (view 512 (writtenDev fs (s :: l) free s c.length b h) (s :: l)) 16
        (c.length + b.length)
      = slice (put v 1024 (b.take j)) 16 (c.length + b.length) := by
        refine slice_congr fun i hi => ?_
        rw [view_writtenDev hd hf (by omega) (by omega) (by omega), hn, h496, hv, List.take_zero,
          put_nil, List.drop_zero, hj]
    _ = slice v 16 496 ++ slice (put v 1024 (b.take j)) 512 b.length := by
        rw [h496, slice_add, slice_put_of_disjoint (.inl (by simp))]
    _ = c ++ (slice fs.dev (r * 512) 512 ++ b).take b.length := by
        rw [htk, hsecond, ← h496, hc]

end Append

/-- The contents of a file none of whose blocks is written. -/
theorem Contents.congr (hc : Contents fs s c) (hs : Linked fs.fat 0 s bs)
    (hfat : ∀ x ∈ bs, fs'.fat x = fs.fat x)
    (hdev : ∀ x ∈ bs, ∀ i < 512, fs'.dev (x * 512 + i) = fs.dev (x * 512 + i)) :
    Contents fs' s c := by
  obtain ⟨bs', hl, hlen, hhdr, hslice⟩ := hc
  obtain rfl := hs.unique hl
  have hne : s ≠ 0 := fun h => by
    have := hl.eq_nil_iff.mp h
    simp [this] at hlen
  obtain ⟨l, hcons⟩ := hl.head_mem hne
  refine ⟨bs, hl.congr hfat, hlen, ?_, ?_⟩
  · rw [header_congr fun i hi => hdev s (hcons ▸ List.mem_cons_self) i (by omega), hhdr]
  · rw [← hslice, hslice]
    refine (slice_congr fun i hi => ?_).trans hslice
    exact view_congr (fun x hx j hj => hdev x hx j hj) (by simp) (by omega)

/-- A write that returns 0 updates the file as a byte string, and nothing else, exactly when it is
an append that the chain of the file has room for and that does not start at the end of the first
block, unless the second block held the same bytes already. -/
theorem write_refines_iff (W : WellFormed fs files chain free) (hs : files s) {o : OpenFile}
    (hopen : fs.openFiles s = some o) (hc : Contents fs s c) (ho : offset ≤ c.length)
    (hb : b ≠ []) (hfree : b.length ≤ 512 * free.length) :
    (∀ fs', OpenFile.write fs s offset b = (0, fs') → Refines fs fs' files s offset b c) ↔
      offset = c.length ∧ 16 + c.length + b.length ≤ 512 * (chain s).length ∧
        (c.length = 496 → b <+: slice fs.dev (fs.fat s * 512) 512 ++ b) := by
  obtain ⟨fs', he, hmeta, hopen', hfat, hdev⟩ := write_spec W hs hc hopen ho hfree
  have hb0 := List.length_pos_iff.mpr hb
  have hlinked := W.linked hs hfat
  obtain ⟨l, hl⟩ := (W.file s hs).head_mem (W.ne_zero hs hc)
  have hd : (s :: l).Nodup := hl ▸ (W.file s hs).nodup
  have hf : ∀ x ∈ free, x ∉ s :: l := fun x hx h => W.file_free s hs x (hl ▸ h) hx
  have hslice : slice (view 512 fs.dev (s :: l)) 16 c.length = c := by
    obtain ⟨bs, hbs, -, -, h⟩ := hc
    rwa [W.chain_eq hs hbs, hl] at h
  have hover : overwrite c c.length b = c ++ b := by
    rw [overwrite, List.take_length, List.drop_of_length_le (by omega), List.append_nil]
  constructor
  · intro h
    have R := h fs' he
    have hoff : offset = c.length := by
      have := hmeta ▸ R.metaData
      have := congrArg MetaData.length this
      simp only at this
      omega
    subst hoff
    obtain ⟨bs, hbs, hcov, -, hbs'⟩ := R.contents
    obtain rfl := hbs.unique hlinked
    rw [hover, List.length_append] at hcov hbs'
    refine ⟨rfl, by omega, fun h496 => ?_⟩
    obtain ⟨r, l', rfl⟩ : ∃ r l', l = r :: l' := by
      cases l with
      | nil => rw [hl] at hcov; simp at hcov; omega
      | cons r l' => exact ⟨r, l', rfl⟩
    have hr : fs.fat s = r := by
      have := W.file s hs
      rw [hl] at this
      exact this.2.2.1
    rw [hl] at hbs' hdev
    rw [hdev, slice_append_of_eq hd hf hslice (by rw [← hl]; omega) hb rfl h496,
      List.append_cancel_left_eq, eq_comm] at hbs'
    rw [hr, List.prefix_iff_eq_take]
    exact hbs'
  · rintro ⟨rfl, hcover, h496⟩ fs'' he'
    obtain rfl : fs'' = fs' := by rw [he] at he'; exact (Prod.ext_iff.mp he').2.symm
    have hmax : max c.length (c.length + b.length) = c.length + b.length := by omega
    have hsame : fs.metaData s = header fs.dev s := by
      rw [Fat439.metaData, Fat439.fileAt_eq hopen, W.header s o hs hopen]
    have hhdr : header fs''.dev s = { header fs.dev s with length := c.length + b.length } := by
      rw [hdev, writtenDev, header_put, hsame]
      have hsize := W.size_lt hs hc hfree
      have hw := @header_words_lt fs.dev s
      rw [hsame]
      simp only [MetaData.words, List.mem_cons, List.not_mem_nil, or_false, forall_eq_or_imp,
        forall_eq] at hw ⊢
      exact ⟨hw.1, by omega, hw.2.2.1, hw.2.2.2⟩
    -- the blocks of the other files, and the superblock, are not written
    have hblk : (chain s).getD ((c.length + 16) / 512) 0 ∈ chain s := by
      have hk : (c.length + 16) / 512 < (chain s).length := by omega
      rw [List.getD_eq_getElem?_getD, List.getElem?_eq_getElem hk]
      exact List.getElem_mem hk
    have hframe : ∀ x, x ∉ chain s → x ∉ free → ∀ i < 512,
        fs''.dev (x * 512 + i) = fs.dev (x * 512 + i) := by
      intro x hx hxf i hi
      rw [hdev]
      exact writtenDev_of_notMem (hl ▸ List.mem_cons_self) hx hxf (fun h => hx (h ▸ hblk)) hi
    refine ⟨by rw [hmeta, hmax], by rw [hhdr, hmax], ?_, ?_, ?_⟩
    · refine ⟨chain s, hlinked, ?_, ?_, ?_⟩
      · rw [hover, List.length_append]; omega
      · rw [hover, List.length_append, hhdr]
      · rw [hover, List.length_append]
        rw [hl] at hdev hcover ⊢
        rw [hdev]
        by_cases h : c.length = 496
        · obtain ⟨r, l', rfl⟩ : ∃ r l', l = r :: l' := by
            cases l with
            | nil => simp at hcover; omega
            | cons r l' => exact ⟨r, l', rfl⟩
          have hr : fs.fat s = r := by
            have := W.file s hs
            rw [hl] at this
            exact this.2.2.1
          rw [slice_append_of_eq hd hf hslice hcover hb rfl h, ← hr,
            ← List.prefix_iff_eq_take.mp (h496 h)]
        · exact slice_append hd hf hslice hcover hb h
    · refine slice_congr fun i hi => ?_
      simpa using hframe 0 (fun h => W.chain_ne_zero hs h rfl)
        (fun h => W.avail.ne_nil h rfl) i hi
    · intro t ht hts c' hc'
      have hout : ∀ x ∈ chain t, x ∉ chain s ∧ x ∉ free := fun x hx =>
        ⟨W.file_file t s ht hs hts x hx, W.file_free t ht x hx⟩
      exact hc'.congr (W.file t ht) (fun x hx => hfat x (hout x hx).2)
        fun x hx => hframe x (hout x hx).1 (hout x hx).2

end

/-- A device of eight blocks with the file `[7]` at block 3, which is open, and the free block 4. -/
def oneByteFile : Fat439 where
  dev := put (fun _ => 0) 1536 (MetaData.bytes ⟨1, 1, 1023, 3⟩ ++ [7])
  super := ⟨0x39333446, 8, 4, 7⟩
  fat := fun _ => 0
  openFilesMutex := 1
  openFiles := fun s => if s = 3 then some ⟨⟨1, 1, 1023, 3⟩, 1⟩ else none

theorem oneByteFile_wellFormed : WellFormed oneByteFile (· = 3) (fun _ => [3]) [4] where
  size := by decide
  zero := rfl
  avail := by simp [Linked, oneByteFile]
  file := by rintro s rfl; simp [Linked, oneByteFile]
  free_lt := by simp [oneByteFile]
  file_lt := by simp [oneByteFile]
  file_free := by simp
  file_file := by rintro s t rfl rfl h; exact absurd rfl h
  header := by rintro s o rfl h; cases h; decide

theorem oneByteFile_contents : Contents oneByteFile 3 [7] :=
  ⟨[3], by simp [Linked, oneByteFile], by decide, by decide, by decide⟩

/-- An append to the file of one byte is an append to its bytes. -/
theorem write_refines_append : ∃ fs', OpenFile.write oneByteFile 3 1 [9] = (0, fs') ∧
    Refines oneByteFile fs' (· = 3) 3 1 [9] [7] := by
  obtain ⟨fs', he, -⟩ := write_spec (b := [9]) oneByteFile_wellFormed rfl oneByteFile_contents
    rfl (Nat.le_refl _) (by decide)
  exact ⟨fs', he,
    (write_refines_iff oneByteFile_wellFormed rfl rfl oneByteFile_contents (by decide)
    (by decide) (by decide)).mpr ⟨rfl, by decide, by decide⟩ fs' he⟩

/-- Overwriting the one byte makes the file longer. -/
theorem write_overwrite_longer : ∃ fs', OpenFile.write oneByteFile 3 0 [9] = (0, fs') ∧
    (fs'.metaData 3).length = 2 ∧ ¬Refines oneByteFile fs' (· = 3) 3 0 [9] [7] := by
  obtain ⟨fs', he, hmeta, -⟩ :=
    write_spec (b := [9]) oneByteFile_wellFormed rfl oneByteFile_contents
    rfl (Nat.zero_le _) (by decide)
  refine ⟨fs', he, by rw [hmeta]; rfl, fun R => ?_⟩
  have := hmeta ▸ R.metaData
  exact absurd (congrArg MetaData.length this) (by decide)

end K439.Fs
