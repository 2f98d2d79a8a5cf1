import K439.Fs.Tree
import K439.Fs.Remove

/-!
# Cached headers

The header of an open file is held in its `OpenFile` and on the device. `resize` writes both.
`mkdir` writes the header of the new directory to the device only, so that an `OpenFile` that is
still held for the block does not match any more.
-/

namespace K439.Fs

/-- The references to the open file at `start`. -/
def Fat439.count (fs : Fat439) (start : Nat) : Nat :=
  ((fs.openFiles start).map (·.count.toNat)).getD 0

/-- The objects are counted, so that their open files are not deleted. -/
def Counted (m : Mount) : Prop := ∀ s, m.refs.count s ≤ m.fs.count s

/-- The files that are open lie in the area of a device of `n` blocks, and have the headers that are
on the device. -/
def Agrees (n : Nat) (fs : Fat439) : Prop :=
  ∀ b o, fs.openFiles b = some o → InArea n b ∧ o.metaData = header fs.dev b

structure Matched (m : Mount) : Prop where
  size : m.fs.super.nBlocks ≤ 0x800000
  fat : ∀ x, m.fs.fat x = 0 ∨ InArea m.fs.super.nBlocks (m.fs.fat x)
  avail : m.fs.super.avail = 0 ∨ InArea m.fs.super.nBlocks m.fs.super.avail
  counted : Counted m
  agrees : Agrees m.fs.super.nBlocks m.fs

/-- Blocks of the data area only are opened, and no count wraps. The block that `mkdir` takes is not
open, or open as what it will be, and its entry goes behind the header of a block. A removal moves
no entries. -/
def Fits (m : Mount) (op : Op) : Prop :=
  (m.target op = 0 ∨ InArea m.fs.super.nBlocks (m.target op) ∧
    m.fs.count (m.target op) + 1 < 0x100000000) ∧
  match op with
  | .mkdir i entry _ name => ∀ d, m.dirs[i]? = some d → d.mkdirError m.fs entry name = none →
      m.fs.super.avail ≠ 0 →
      (∀ o, m.fs.openFiles m.fs.super.avail = some o →
        o.metaData = ⟨TYPE_DIR, 0, d.start, m.fs.super.avail⟩) ∧
      16 ≤ ((m.fs.metaData d.start).length + 16) % 512 ∧
      ((m.fs.metaData d.start).length + 16) % 512 ≤ 496 ∧
      (m.fs.metaData d.start).length + 16 < 0x100000000
  | .remove i entry entry' name => ∀ d, m.dirs[i]? = some d → Stops m.fs d entry entry' name ∨
      (m.fs.metaData d.start).length < 0x1000
  | _ => True

section

variable {fs fs' : Fat439} {d : Fat439Directory} {m m' : Mount} {op : Op} {o : OpenFile}
  {i s t n x b newsz : Nat}

/-! ## References -/

namespace Fat439

theorem count_congr (h : fs'.openFiles = fs.openFiles) : fs'.count t = fs.count t := by
  rw [count, count, h]

theorem count_update {p : Option OpenFile} (h : fs'.openFiles = Function.update fs.openFiles s p) :
    fs'.count t = if t = s then (p.map (·.count.toNat)).getD 0 else fs.count t := by
  rw [count, h]
  split
  next he => rw [he, Function.update_self]
  next hne => rw [Function.update_of_ne hne]; rfl

theorem fileAt_count : (fs.fileAt s).count.toNat = fs.count s := by
  rw [fileAt, count]
  cases fs.openFiles s <;> rfl

theorem count_openFile (h : fs.count s + 1 < 0x100000000) :
    (fs.openFile s).count t = fs.count t + if t = s then 1 else 0 := by
  rw [@count_update fs _ _ _ _ rfl]
  split
  next he =>
    rw [he, ← fileAt_count] at *
    exact (UInt32.toNat_add _ _).trans (Nat.mod_eq_of_lt h)
  next => rfl

theorem count_resize : (OpenFile.resize fs s newsz).count t = fs.count t := by
  rw [@count_update fs _ _ _ _ rfl]
  split
  next he => rw [he, ← fileAt_count]; rfl
  next => rfl

theorem count_closeFile (h : 0 < fs.count s) :
    (fs.closeFile s).count t = if t = s then fs.count t - 1 else fs.count t := by
  rw [@count_update fs _ _ _ _ rfl]
  split
  next he =>
    rw [he]
    rw [count] at h ⊢
    cases ho : fs.openFiles s with
    | none =>
      rw [ho] at h
      exact absurd h (Nat.lt_irrefl 0)
    | some p =>
      rw [ho] at h
      simp only [Option.map_some, Option.getD_some, Option.bind_some] at h ⊢
      split
      next h1 => rw [h1]; rfl
      next => exact UInt32.toNat_sub_of_le _ _ (UInt32.le_iff_toNat_le.mpr h)
  next => rfl

end Fat439

namespace Counted

theorem allOpen (hm : Counted m) : AllOpen m := by
  intro s hs hnone
  have := hm s
  rw [Fat439.count, hnone] at this
  exact absurd (List.count_pos_iff.mpr hs) (Nat.not_lt.mpr this)

/-- An object is among the references. -/
theorem closeFile {j : Nat} {f : Fat439File} (hm : Counted m) (hf : m.files[j]? = some f) :
    Counted { m with fs := m.fs.closeFile f.openFile, files := m.files.eraseIdx j } := by
  intro s
  have hs := hm s
  rw [Mount.refs, List.count_append] at hs ⊢
  have hperm :=
    (List.getElem_cons_eraseIdx_perm (List.getElem?_eq_some_iff.mp hf).1).map (·.openFile)
  rw [(List.getElem?_eq_some_iff.mp hf).2, List.map_cons] at hperm
  have hcount := hperm.count_eq s
  have hpos : 0 < m.fs.count f.openFile := by
    have hmem := List.mem_map_of_mem (f := (·.openFile)) (List.mem_of_getElem? hf)
    exact Nat.lt_of_lt_of_le (List.count_pos_iff.mpr (List.mem_append_right _ hmem)) (hm _)
  rw [List.count_cons] at hcount
  dsimp only
  rw [Fat439.count_closeFile hpos]
  split
  next he =>
    subst he
    rw [beq_self_eq_true, if_pos rfl] at hcount
    omega
  next hne => omega

/-- A close of a file leaves no other object without its `OpenFile`. -/
theorem live_closeFile {j : Nat} {f : Fat439File} (hm : Counted m) (hf : m.files[j]? = some f) :
    Mount.live { m with fs := m.fs.closeFile f.openFile, files := m.files.eraseIdx j } =
      { m with fs := m.fs.closeFile f.openFile, files := m.files.eraseIdx j } := by
  have hopen := (hm.closeFile hf).allOpen
  rw [Mount.live, List.filter_eq_self.mpr, List.filter_eq_self.mpr]
  · exact fun f hf =>
      Option.isSome_iff_ne_none.mpr (hopen _ (List.mem_append_right _ (List.mem_map_of_mem hf)))
  · exact fun d hd =>
      Option.isSome_iff_ne_none.mpr (hopen _ (List.mem_append_left _ (List.mem_map_of_mem hd)))

theorem effect (hm : Counted m)
    (hw : m.target op ≠ 0 → m.fs.count (m.target op) + 1 < 0x100000000) (h : Effect m op m') :
    Counted m' := by
  intro s
  have hs := hm s
  rw [Mount.refs, List.count_append] at hs ⊢
  cases h with
  | same => exact hs
  | opened h0 => exact Nat.le_trans hs (by rw [Fat439.count_openFile (hw h0)]; omega)
  | openedFile h0 =>
    rw [Fat439.count_openFile (hw h0)]
    simp only [List.map_append, List.map_cons, List.map_nil, List.count_append,
      List.count_singleton, beq_iff_eq]
    split <;> split <;> omega
  | openedDir hop h0 =>
    rw [Fat439.count_openFile (hw h0)]
    simp only [List.map_append, List.map_cons, List.map_nil, List.count_append,
      List.count_singleton, beq_iff_eq]
    split <;> split <;> omega
  | @made i d _ _ _ success fs' hop hd herr hav happ =>
    obtain ⟨fs₁, newsz, h₁, h₂⟩ := OpenFile.append_resize
      (by rw [Fat439Directory.newEntry_length]; omega) happ
    have hcount : fs'.count s = m.fs.count s := by
      rw [Fat439.count_congr h₂, Fat439.count_resize, Fat439.count_congr h₁]
      exact Fat439.count_congr Fat439.remNextAvail_openFiles
    rw [map_start_set hd (by rfl), hcount]
    exact hs
  | @freed i d _ _ _ fs₁ fs₂ hop hd h0 hobj hrem hadd =>
    obtain ⟨fs₀, newsz, h₁, h₂, -⟩ := OpenFile.remFromOffset_resize hrem
    obtain ⟨last, -, h₃⟩ := Fat439.addAvailBlk_eq hadd
    have hcount : m.fs.count s ≤ fs₂.sync.count s := by
      have : fs₂.sync.count s = (OpenFile.resize fs₁ (m.target op) 0).count s :=
        Fat439.count_congr (by rw [h₃]; rfl)
      rw [this, Fat439.count_resize, Fat439.count_congr h₂, Fat439.count_resize,
        Fat439.count_congr h₁, Fat439.count_openFile (hw h0)]
      omega
    rw [map_start_set hd (by rfl)]
    exact Nat.le_trans hs hcount
  | closedFile hf =>
    have := hm.closeFile hf s
    rw [hm.live_closeFile hf]
    rwa [Mount.refs, List.count_append] at this
  | closedDir =>
    refine Nat.le_trans (Nat.add_le_add_right ?_ _) hs
    exact (((List.eraseIdx_sublist ..).map _).count_le s)

end Counted

/-- A mounted file system counts its root directory. -/
theorem mount_counted {dev : Dev} (h : mount dev = some m) : Counted m := by
  obtain ⟨fs, hfs, rfl⟩ := mount_eq h
  have hempty : ∀ t, fs.count t = 0 :=
    fun t => by rw [Fat439.count, Fat439.create_openFiles hfs]; rfl
  intro s
  rw [Fat439.count_openFile (by rw [hempty]; omega), Mount.refs]
  simp only [List.map_cons, List.map_nil, List.append_nil, List.count_singleton, beq_iff_eq]
  split <;> split <;> omega

namespace Agrees

variable (A : Agrees n fs) (hn : n ≤ 0x800000)
include A hn

theorem metaData_eq (hx : InArea n x) : fs.metaData x = header fs.dev x := by
  cases ho : fs.openFiles x with
  | none => exact Fat439.metaData_of_none ho (Nat.lt_of_lt_of_le hx.2 hn)
  | some o => exact (Fat439.metaData_of_some ho).trans (A x o ho).2

theorem openFile (hx : InArea n x) : Agrees n (fs.openFile x) := by
  intro b o ho
  rcases Nat.decEq b x with hne | rfl
  · rw [Fat439.openFile_of_ne _ hne] at ho
    exact A b o ho
  · rw [Fat439.openFile_self] at ho
    cases ho
    exact ⟨hx, A.metaData_eq hn hx⟩

omit hn in
theorem closeFile : Agrees n (fs.closeFile x) := by
  intro b o ho
  obtain ⟨p, hp, hmeta⟩ := Fat439.closeFile_some ho
  rw [hmeta]
  exact A b p hp

/-- `resize` writes the header that it changes. -/
theorem resize (hs : InArea n s) (hnew : newsz < 0x100000000) :
    Agrees n (OpenFile.resize fs s newsz) := by
  have hlt := hs.2
  have hmeta := A.metaData_eq hn hs
  intro b o ho
  rw [OpenFile.resize_dev, w32_of_lt (by omega), hmeta]
  rcases Nat.decEq b s with hne | rfl
  · rw [OpenFile.resize_openFiles_of_ne hne] at ho
    rw [header_put_ne hne]
    exact A b o ho
  · rw [OpenFile.resize_openFiles_self] at ho
    cases ho
    rw [header_put (MetaData.words_lt header_words_lt hnew)]
    exact ⟨hs, by rw [hmeta]⟩

theorem sync (hf : fs.super.nBlocks = n) : Agrees n fs.sync := by
  intro b o ho
  obtain ⟨hb, h⟩ := A b o ho
  rw [Fat439.sync_dev (hf ▸ hn), hf, header_put_sync hb]
  exact ⟨hb, h⟩

end Agrees

namespace Matched

variable (M : Matched m)
include M

/-- Walking along the FAT stays on the device. -/
theorem iterate_lt {fat : Nat → Nat} (hfat : ∀ x, fat x = 0 ∨ fat x = m.fs.fat x)
    (hs : s < 0x800000) (k : Nat) : fat^[k] s < 0x800000 := by
  have hlt : ∀ x, fat x < 0x800000 := by
    intro x
    rcases hfat x with h | h
    · omega
    · rcases M.fat x with h' | h'
      · omega
      · have := h'.2
        have := M.size
        omega
  induction k with
  | zero => exact hs
  | succ k _ => rw [Function.iterate_succ_apply']; exact hlt _

/-- `mkdir` through an object whose directory is open. -/
theorem made {entry : List UInt8} {success : Int} (ho : m.fs.openFiles d.start = some o)
    (hav : m.fs.super.avail ≠ 0) (hentry : entry.length = 16)
    (hnew : ∀ o, m.fs.openFiles m.fs.super.avail = some o →
      o.metaData = ⟨TYPE_DIR, 0, d.start, m.fs.super.avail⟩)
    (hoff : 16 ≤ ((m.fs.metaData d.start).length + 16) % 512 ∧
      ((m.fs.metaData d.start).length + 16) % 512 ≤ 496)
    (hlt : (m.fs.metaData d.start).length + 16 < 0x100000000)
    (happ : OpenFile.append (d.taken m.fs) d.start entry = (success, fs')) :
    fs'.super.nBlocks = m.fs.super.nBlocks ∧
      (∀ x, fs'.fat x = 0 ∨ InArea m.fs.super.nBlocks (fs'.fat x)) ∧
      (fs'.super.avail = 0 ∨ InArea m.fs.super.nBlocks fs'.super.avail) ∧
      Agrees m.fs.super.nBlocks fs' := by
  rw [Fat439.metaData_of_some ho] at hoff hlt
  generalize hL : o.metaData.length = L at hoff hlt
  have hoT : (d.taken m.fs).openFiles d.start = some o := by
    rw [Fat439Directory.taken_eq hav]; exact ho
  obtain ⟨hs, hdisk⟩ := M.agrees _ _ ho
  have hslt : d.start < 0x800000 := Nat.lt_of_lt_of_le hs.2 M.size
  have hava := M.avail.resolve_left hav
  have halt : m.fs.super.avail < 0x800000 := Nat.lt_of_lt_of_le hava.2 M.size
  rw [OpenFile.append_entry hoT hL hentry hoff hlt, Fat439Directory.taken_eq hav] at happ
  have hfs : _ = fs' := (Prod.ext_iff.mp happ).2
  dsimp only at hfs
  generalize hB : (Function.update m.fs.fat m.fs.super.avail 0)^[(L + 16) / 512] d.start = B at hfs
  have hfat : ∀ x, Function.update m.fs.fat m.fs.super.avail 0 x = 0 ∨
      Function.update m.fs.fat m.fs.super.avail 0 x = m.fs.fat x := by
    intro x
    rcases Nat.decEq x m.fs.super.avail with hne | rfl
    · exact .inr (Function.update_of_ne hne ..)
    · exact .inl (Function.update_self ..)
  have hBlt : B < 0x800000 := hB ▸ M.iterate_lt hfat hslt _
  rw [w32_of_lt (by omega), w32_of_lt (addr_lt hBlt (by omega)), w32_of_lt (by omega)] at hfs
  have hwords : ∀ w ∈ ({ o.metaData with length := L + 16 } : MetaData).words, w <
      0x100000000 :=
    MetaData.words_lt (hdisk ▸ header_words_lt) hlt
  subst hfs
  refine ⟨rfl, fun x => ?_, M.fat _, fun b o' ho' => ?_⟩
  · rcases hfat x with h | h
    · exact .inl h
    · exact (M.fat x).imp (fun h' => h.trans h') fun h' => by dsimp only; rwa [h]
  · dsimp only at ho' ⊢
    rcases Nat.decEq b d.start with hne | rfl
    · rw [Function.update_of_ne hne] at ho'
      obtain ⟨hb, h⟩ := M.agrees b o' ho'
      refine ⟨hb, ?_⟩
      rw [header_put_ne hne, header_put_behind hoff.1 (by omega)]
      rcases Nat.decEq b m.fs.super.avail with hne' | rfl
      · rw [header_put_ne hne']
        exact h
      · rw [hnew o' ho', header_put]
        simp only [MetaData.words, TYPE_DIR, List.mem_cons, List.not_mem_nil, or_false,
          forall_eq_or_imp, forall_eq]
        omega
    · rw [Function.update_self] at ho'
      cases ho'
      exact ⟨hs, (header_put hwords).symm⟩

/-- A removal that moves no entries. -/
theorem freed {fs₁ fs₂ : Fat439} {off blk : Nat} (hs : InArea m.fs.super.nBlocks d.start)
    (hblk : InArea m.fs.super.nBlocks blk) (hL : (m.fs.metaData d.start).length < 0x1000)
    (hrem : OpenFile.remFromOffset (m.fs.openFile blk) d.start off 16 = (.ret 0, fs₁))
    (hadd : (OpenFile.resize fs₁ blk 0).addAvailBlk blk = some fs₂) :
    fs₂.sync.super.nBlocks = m.fs.super.nBlocks ∧
      (∀ x, fs₂.sync.fat x = 0 ∨ InArea m.fs.super.nBlocks (fs₂.sync.fat x)) ∧
      (fs₂.sync.super.avail = 0 ∨ InArea m.fs.super.nBlocks fs₂.sync.super.avail) ∧
      Agrees m.fs.super.nBlocks fs₂.sync := by
  obtain ⟨newsz, hnew, rfl⟩ : ∃ newsz, newsz < 0x100000000 ∧
      fs₁ = (OpenFile.resize (m.fs.openFile blk) d.start newsz).unlock := by
    rcases remFromOffset_ret (by rwa [Fat439.metaData_openFile]) hrem with ⟨-, h⟩ |
      ⟨-, -, h⟩
    · exact ⟨0, by omega, h⟩
    · exact ⟨w32 off, w32_lt, h⟩
  obtain ⟨last, -, rfl⟩ := Fat439.addAvailBlk_eq hadd
  have hA₁ := (M.agrees.openFile M.size hblk).resize M.size hs hnew
  have hA₂ : Agrees m.fs.super.nBlocks
      (OpenFile.resize (OpenFile.resize (m.fs.openFile blk) d.start newsz).unlock blk 0) :=
    Agrees.resize hA₁ M.size hblk (by omega)
  refine ⟨rfl, fun x => ?_, .inr hblk, Agrees.sync hA₂ M.size rfl⟩
  rcases Nat.decEq x last with hne | rfl
  · rw [show Fat439.fat _ x = _ from Function.update_of_ne hne ..]
    exact M.fat x
  · rw [show Fat439.fat _ x = _ from Function.update_self ..]
    exact M.avail

end Matched

/-- Steps that fit. -/
theorem Matched.step (M : Matched m) (hF : Fits m op) (h : Step m op m') : Matched m' := by
  have hc := M.counted.effect (fun h0 => (hF.1.resolve_left h0).2) h.effect
  cases h.effect with
  | same => exact M
  | opened h0 =>
    exact ⟨M.size, M.fat, M.avail, hc, M.agrees.openFile M.size (hF.1.resolve_left h0).1⟩
  | openedFile h0 =>
    exact ⟨M.size, M.fat, M.avail, hc, M.agrees.openFile M.size (hF.1.resolve_left h0).1⟩
  | openedDir _ h0 =>
    exact ⟨M.size, M.fat, M.avail, hc, M.agrees.openFile M.size (hF.1.resolve_left h0).1⟩
  | closedFile => exact ⟨M.size, M.fat, M.avail, hc, M.agrees.closeFile⟩
  | closedDir => exact ⟨M.size, M.fat, M.avail, hc, M.agrees⟩
  | @made i d entry entry' name success fs' hop hd herr hav happ =>
    subst hop
    obtain ⟨hnew, hoff, hoff', hlt⟩ := hF.2 d hd herr hav
    obtain ⟨o, ho⟩ := M.counted.allOpen.isOpen (List.mem_of_getElem? hd)
    obtain ⟨hnb, hfat, hav', hA⟩ :=
      M.made ho hav Fat439Directory.newEntry_length hnew ⟨hoff, hoff'⟩ hlt happ
    exact ⟨hnb ▸ M.size, hnb ▸ hfat, hnb ▸ hav', hc, hnb ▸ hA⟩
  | @freed i d entry entry' name fs₁ fs₂ hop hd h0 hobj hrem hadd =>
    subst hop
    obtain ⟨o, ho⟩ := M.counted.allOpen.isOpen (List.mem_of_getElem? hd)
    have ht : m.target (.remove i entry entry' name) = d.lookup m.fs entry name := by
      rw [Mount.target, hd]; rfl
    have hL := (hF.2 d hd).resolve_left fun hs => by
      rw [ht] at h0 hobj hrem
      exact hs.not_freed h0 hobj hrem
    obtain ⟨hnb, hfat, hav', hA⟩ :=
      M.freed (M.agrees _ _ ho).1 (hF.1.resolve_left h0).1 hL hrem hadd
    exact ⟨hnb ▸ M.size, hnb ▸ hfat, hnb ▸ hav', hc, hnb ▸ hA⟩

/-- In every run of operations that fit, the headers of the open files are those on the device. -/
theorem cached_match {files : List HostFile} {ops : List Op} (hn : n ≤ 0x800000)
    (hroom : 1 + fatBlocks n < n) (h31 : files.length ≤ 31) (hm : Mounted n files m)
    (hr : Run (Run.Within Step Fits) m ops m') :
    ∀ b o, m'.fs.openFiles b = some o → o.metaData = header m'.fs.dev b := by
  have hc : Counted m := by
    obtain ⟨img, -, hmount⟩ := hm
    exact mount_counted hmount
  obtain ⟨img, cs, free, B, rfl, rfl⟩ := hm.built hn hroom h31
  have hav : img.avail = 0 ∨ InArea img.nBlocks img.avail := by
    rcases Nat.eq_zero_or_pos img.avail with h | h
    · exact .inl h
    · obtain ⟨l, hl⟩ := B.layout.avail.head_mem (Nat.pos_iff_ne_zero.mp h)
      exact .inr (B.layout.inArea_of_free (hl ▸ List.mem_cons_self))
  have hempty : Agrees img.nBlocks img.toFs := nofun
  have M := hr.inv_of (I := Matched) (fun _ _ _ M hF hs => M.step hF hs)
    ⟨hn, B.layout.fat_inArea, hav, hc, hempty.openFile hn B.root_inArea⟩
  exact fun b o ho => (M.agrees b o ho).2

theorem cached_match_mkdir : ∃ m', Run (Run.Within Step Fits) byteMount
    [.mkdir 0 (fun _ => 0) (fun _ => 0) [0x62]] m' ∧
      ∀ b o, m'.fs.openFiles b = some o → o.metaData = header m'.fs.dev b := by
  have hsome : (byteMount.step (.mkdir 0 (fun _ => 0) (fun _ => 0) [0x62])).isSome = true := by
    decide +kernel
  have hfits : Fits byteMount (.mkdir 0 (fun _ => 0) (fun _ => 0) [0x62]) := by
    refine ⟨.inl rfl, fun d hd _ _ => ?_⟩
    have hdirs : byteMount.dirs = [⟨7, 1⟩] := by decide
    rw [hdirs] at hd
    obtain rfl : ⟨7, 1⟩ = d := Option.some.inj hd
    refine ⟨fun o ho => ?_, by decide, by decide, by decide⟩
    have hnone : (byteMount.fs.openFiles byteMount.fs.super.avail).isNone = true := by decide
    rw [ho] at hnone
    cases hnone
  have hrun : Run (Run.Within Step Fits) byteMount _ _ := .single ⟨.of_isSome hsome, hfits⟩
  exact ⟨_, hrun, cached_match (by decide) (by decide) (by decide) mounted_byteMount hrun⟩

/-- The only file is removed and a directory is made. -/
def reuseBlock : List Op := [removeByteFile, .mkdir 0 (fun _ => 0) (fun _ => 0) [0x62]]

theorem reuseBlock_isSome : (byteMount.after reuseBlock).isSome = true := by decide +kernel

/-- The object that `remove` opened is still a file when its block is a directory. -/
theorem header_stale :
    Mounted 8 [byteFile] byteMount ∧ ∃ m', Run Step byteMount reuseBlock m' ∧
    ¬∀ b o, m'.fs.openFiles b = some o → o.metaData = header m'.fs.dev b := by
  refine ⟨mounted_byteMount, _, Mount.run_after reuseBlock_isSome, fun h => ?_⟩
  have hopen :
      ((((byteMount.after reuseBlock).get reuseBlock_isSome).fs.openFiles 6).map (·.metaData)) =
      some ⟨TYPE_FILE, 0, 1023, 6⟩ := by decide +kernel
  have hdisk : header ((byteMount.after reuseBlock).get reuseBlock_isSome).fs.dev 6 =
      ⟨TYPE_DIR, 0, 7, 6⟩ := by decide +kernel
  obtain ⟨o, ho, hmeta⟩ := Option.map_eq_some_iff.mp hopen
  cases hmeta.symm.trans ((h 6 o ho).trans hdisk)

end

end K439.Fs
