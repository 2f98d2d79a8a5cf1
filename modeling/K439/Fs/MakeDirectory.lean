import K439.Fs.Tree

/-!
# Making a directory

In every state `mkdir` does what it is to do when its entry goes into the first block, the object
knows all entries, the name is not "..", which the root directory accepts, and no file has the block
that is taken (`Appended.makes`). In the states that are reached as long as the blocks are kept in
order and directories are opened on directories only, it does so in no other case.
-/

namespace K439.Fs

/-- The operations that keep the blocks in order, where directory objects are made of directories,
the block that `mkdir` takes is not open as something else, and a removal is called through the only
object of its directory and does not remove the directory of another object. -/
def Orderly (m : Mount) (op : Op) : Prop :=
  Keeps m op ∧ (op.OpensDirectory →
    m.target op = 0 ∨ (m.fs.metaData (m.target op)).type = TYPE_DIR) ∧
  match op with
  | .mkdir i entry _ name => ∀ d, m.dirs[i]? = some d → d.mkdirError m.fs entry name = none →
      m.fs.super.avail ≠ 0 → ∀ o, m.fs.openFiles m.fs.super.avail = some o →
        o.metaData = ⟨TYPE_DIR, 0, d.start, m.fs.super.avail⟩
  | .remove i entry entry' name => ∀ d, m.dirs[i]? = some d → Stops m.fs d entry entry' name ∨
      ∀ j d₂, m.dirs[j]? = some d₂ → j ≠ i →
        d₂.start ≠ d.start ∧ d₂.start ≠ d.lookup m.fs entry name
  | _ => True

/-- What is named by an entry, or the root directory. -/
def Named (fs : Fat439) (x : Nat) : Prop := ∃ a, a ≠ .free ∧ Owns fs a x

/-- The states of orderly runs. -/
structure Kept (m : Mount) : Prop where
  tree : Tree m.fs
  allOpen : AllOpen m
  parent : ∀ s i, Dir m.fs s → i < (header m.fs.dev s).length / 16 →
    (header m.fs.dev (entryStart m.fs s i)).type = TYPE_DIR →
    (header m.fs.dev (entryStart m.fs s i)).parentDir = s
  rootParent : (header m.fs.dev m.fs.super.root).parentDir = 0
  cached : ∀ b o, m.fs.openFiles b = some o → o.metaData = header m.fs.dev b ∧
    (Named m.fs b ∨ OnChain m.fs m.fs.super.avail b)
  dirs : ∀ d ∈ m.dirs, Dir m.fs d.start ∧ d.entries ≤ (header m.fs.dev d.start).length / 16
  root : word m.fs.dev 12 = m.fs.super.root

section

variable {fs fs' : Fat439} {d d' : Fat439Directory} {m m' : Mount} {op : Op} {ops : List Op}
  {entry entry' : Nat → UInt8} {name other : List UInt8} {x n i b L : Nat} {code : Int}

/-- A directory object whose entries can all be read. -/
structure Readable (fs : Fat439) (d : Fat439Directory) : Prop where
  dir : Dir fs d.start
  metaData : fs.metaData d.start = header fs.dev d.start
  entries : d.entries ≤ (header fs.dev d.start).length / 16

theorem Readable.read (T : Tree fs) (R : Readable fs d) {j : Nat}
    (hj : j < (header fs.dev d.start).length / 16) :
    OpenFile.readFully fs d.start (w32 (j * 16)) 16 =
      slice fs.dev (Fat439Directory.entryAddr fs d.start j) 16 := by
  have := (T.dir _ R.dir).2.2.1
  exact Fat439Directory.readFully_entry (by rw [R.metaData]; omega) (by omega)

/-- What a search over entries of a directory finds. -/
theorem Readable.search_eq (T : Tree fs) (R : Readable fs d) {k : Nat}
    (hk : k ≤ (header fs.dev d.start).length / 16) :
    Fat439Directory.search fs d name k 0 entry =
    ((List.range' 0 k).find? fun j => sameName
      (fun o => fs.dev (Fat439Directory.entryAddr fs d.start j + o)) name 12 0).map fun j =>
    (j, entryStart fs d.start j) :=
  Fat439Directory.search_eq fun _ _ hj => R.read T (by omega)

theorem Readable.search_named (T : Tree fs) (R : Readable fs d) {k j : Nat}
    (hk : k ≤ (header fs.dev d.start).length / 16)
    (h : Fat439Directory.search fs d name k 0 entry = some (j, x)) :
    j < (header fs.dev d.start).length / 16 ∧ x = entryStart fs d.start j := by
  have hj := (Fat439Directory.search_bounds h).2
  rw [R.search_eq T hk] at h
  obtain ⟨j', -, h⟩ := Option.map_eq_some_iff.mp h
  cases h
  exact ⟨by omega, rfl⟩

theorem Named.of_dir (T : Tree fs) (hx : Dir fs x) : Named fs x := T.dir_owned hx

theorem Named.not_free (T : Tree fs) (hx : Named fs x) : ¬OnChain fs fs.super.avail x := by
  obtain ⟨a, ha, hx⟩ := hx
  exact fun h => ha (T.owned.unique _ _ _ hx h)

/-- A lookup finds the directory, its parent or what an entry names. -/
theorem Readable.lookup_named (T : Tree fs) (R : Readable fs d)
    (hparent : (header fs.dev d.start).parentDir = 0 ∨ Dir fs (header fs.dev d.start).parentDir)
    (hx : d.lookup fs entry name = x) (h0 : x ≠ 0) :
    Named fs x ∧ ((header fs.dev x).type = TYPE_DIR → Dir fs x) := by
  rw [Fat439Directory.lookup] at hx
  split at hx
  · subst hx
    exact ⟨.of_dir T R.dir, fun _ => R.dir⟩
  split at hx
  · rw [R.metaData] at hx
    have hdir := hparent.resolve_left (hx ▸ h0)
    rw [hx] at hdir
    exact ⟨.of_dir T hdir, fun _ => hdir⟩
  · cases hs : Fat439Directory.search fs d name d.entries 0 entry with
    | none => rw [hs] at hx; exact absurd hx.symm h0
    | some r =>
      rw [hs] at hx
      obtain ⟨hj, he⟩ := R.search_named T R.entries hs
      obtain rfl : entryStart fs d.start r.1 = x := he.symm.trans hx
      exact ⟨⟨.entry d.start r.1, Slot.entry_ne_free, T.entry_owns R.dir hj⟩,
        .entry R.dir hj⟩

namespace Kept

variable (K : Kept m)
include K

theorem readable (hd : d ∈ m.dirs) : Readable m.fs d := by
  obtain ⟨o, ho⟩ := K.allOpen.isOpen hd
  exact ⟨(K.dirs d hd).1, (Fat439.metaData_of_some ho).trans (K.cached _ _ ho).1,
    (K.dirs d hd).2⟩

theorem parent_dir (hx : Dir m.fs x) :
    (header m.fs.dev x).parentDir = 0 ∨ Dir m.fs (header m.fs.dev x).parentDir := by
  cases hx with
  | root => exact .inl K.rootParent
  | @entry s i hs hi htype => exact .inr ((K.parent s i hs hi htype).symm ▸ hs)

theorem lookup_named (hd : d ∈ m.dirs) (h0 : d.lookup m.fs entry name ≠ 0) :
    Named m.fs (d.lookup m.fs entry name) ∧
      ((header m.fs.dev (d.lookup m.fs entry name)).type = TYPE_DIR →
        Dir m.fs (d.lookup m.fs entry name)) :=
  (K.readable hd).lookup_named K.tree (K.parent_dir (K.dirs d hd).1) rfl h0

/-- What an operation opens is named. -/
theorem target_named (h0 : m.target op ≠ 0) : Named m.fs (m.target op) ∧
    ((header m.fs.dev (m.target op)).type = TYPE_DIR → Dir m.fs (m.target op)) := by
  have hlookup : ∀ (i : Nat) entry name, (m.dirs[i]?.map (·.lookup m.fs entry name)).getD 0 ≠
      0 →
      Named m.fs ((m.dirs[i]?.map (·.lookup m.fs entry name)).getD 0) ∧
        ((header m.fs.dev ((m.dirs[i]?.map (·.lookup m.fs entry name)).getD 0)).type = TYPE_DIR →
          Dir m.fs ((m.dirs[i]?.map (·.lookup m.fs entry name)).getD 0)) := by
    intro i entry name h0
    cases hd : m.dirs[i]? with
    | none => rw [hd] at h0; exact absurd rfl h0
    | some d => rw [hd] at h0; exact K.lookup_named (List.mem_of_getElem? hd) h0
  have hpath : ∀ (d : Fat439Directory) (entry : Nat → UInt8),
      d ∈ m.dirs → ∀ (path : List (List UInt8)) x,
      (x ≠ 0 → Named m.fs x ∧ ((header m.fs.dev x).type = TYPE_DIR → Dir m.fs x)) →
      d.lookupPath m.fs entry path x ≠ 0 → Named m.fs (d.lookupPath m.fs entry path x) ∧
        ((header m.fs.dev (d.lookupPath m.fs entry path x)).type = TYPE_DIR →
          Dir m.fs (d.lookupPath m.fs entry path x)) := by
    intro d entry hd path
    induction path with
    | nil => exact fun x hx h0 => hx h0
    | cons name path ih =>
      intro x hx h0
      rw [Fat439Directory.lookupPath] at h0 ⊢
      split at h0
      · exact absurd rfl h0
      next hne =>
        rw [if_neg hne]
        exact ih _ (K.lookup_named hd) h0
  cases op with
  | lookup | mkdir | closeFile | closeDirectory => exact absurd rfl h0
  | remove i entry entry' name => exact hlookup i entry name h0
  | lookupDirectory i entry name => exact hlookup i entry name h0
  | lookupFile i entry name => exact hlookup i entry name h0
  | lookupDirectoryPath i entry path =>
    rw [Mount.target] at h0 ⊢
    cases hd : m.dirs[i]? with
    | none => rw [hd] at h0; exact absurd rfl h0
    | some d =>
      rw [hd] at h0
      exact hpath d entry (List.mem_of_getElem? hd) path 0 (absurd rfl) h0

end Kept

theorem named_openFiles {p : Nat → Option OpenFile} :
    Named { fs with openFiles := p } x ↔ Named fs x := by
  have howns : ∀ a, Owns { fs with openFiles := p } a x ↔ Owns fs a x := by
    intro a
    cases a with
    | free => rfl
    | root => rfl
    | entry s i => exact and_congr_left' dir_openFiles
  exact exists_congr fun a => and_congr_right fun _ => howns a

theorem Kept.metaData_eq (K : Kept m) (hx : Named m.fs x) :
    m.fs.metaData x = header m.fs.dev x := by
  cases ho : m.fs.openFiles x with
  | none =>
    obtain ⟨a, -, hx⟩ := hx
    exact Fat439.metaData_of_none ho (Nat.lt_of_lt_of_le (K.tree.owned.sound _ _ hx).2 K.tree.size)
  | some o => exact (Fat439.metaData_of_some ho).trans (K.cached x o ho).1

/-- Opening what is named, and closing. -/
theorem Kept.openFiles (K : Kept m) {p : Nat → Option OpenFile} {dirs : List Fat439Directory}
    {files : List Fat439File} (hc : AllOpen ⟨{ m.fs with openFiles := p }, dirs, files⟩)
    (hp : ∀ b o, p b = some o → o.metaData = header m.fs.dev b ∧
      (Named m.fs b ∨ OnChain m.fs m.fs.super.avail b))
    (hd : ∀ d ∈ dirs, Dir m.fs d.start ∧
      d.entries ≤ (header m.fs.dev d.start).length / 16) :
    Kept ⟨{ m.fs with openFiles := p }, dirs, files⟩ where
  tree := K.tree.openFiles
  allOpen := hc
  parent s i hs := K.parent s i (dir_openFiles.mp hs)
  rootParent := K.rootParent
  cached b o ho := ⟨(hp b o ho).1, (hp b o ho).2.imp_left named_openFiles.mpr⟩
  dirs d hmem := ⟨dir_openFiles.mpr (hd d hmem).1, (hd d hmem).2⟩
  root := K.root

theorem Kept.openFile (K : Kept m) (hx : Named m.fs x) (b : Nat) (o : OpenFile)
    (ho : (m.fs.openFile x).openFiles b = some o) : o.metaData = header m.fs.dev b ∧
      (Named m.fs b ∨ OnChain m.fs m.fs.super.avail b) := by
  rcases Nat.decEq b x with hne | rfl
  · rw [Fat439.openFile_of_ne _ hne] at ho
    exact K.cached b o ho
  · rw [Fat439.openFile_self] at ho
    cases ho
    exact ⟨K.metaData_eq hx, .inl hx⟩

theorem Kept.closeFile (K : Kept m) (b : Nat) (o : OpenFile)
    (ho : (m.fs.closeFile x).openFiles b = some o) : o.metaData = header m.fs.dev b ∧
      (Named m.fs b ∨ OnChain m.fs m.fs.super.avail b) := by
  obtain ⟨p, hp, hmeta⟩ := Fat439.closeFile_some ho
  rw [hmeta]
  exact K.cached b p hp

/-- A directory is made. -/
theorem Kept.made {success : Int} (K : Kept m) (hdir : Dir m.fs d.start)
    (hdisk : m.fs.metaData d.start = header m.fs.dev d.start)
    (hroom : (m.fs.metaData d.start).length + 32 ≤ 512) (hd : m.dirs[i]? = some d)
    (hav : m.fs.super.avail ≠ 0)
    (hnew : ∀ o, m.fs.openFiles m.fs.super.avail = some o →
      o.metaData = ⟨TYPE_DIR, 0, d.start, m.fs.super.avail⟩)
    (happ : OpenFile.append (d.taken m.fs) d.start
      (Fat439Directory.newEntry entry' name m.fs.super.avail) = (success, fs'))
    (hT : Tree fs') (hc : AllOpen { m with fs := fs', dirs := m.dirs.set i <|
      { d with entries := if success = 0 then d.entries + 1 else d.entries } }) :
    Kept { m with fs := fs', dirs := m.dirs.set i <|
      { d with entries := if success = 0 then d.entries + 1 else d.entries } } := by
  obtain ⟨o, ho⟩ := K.allOpen.isOpen (List.mem_of_getElem? hd)
  have T := K.tree
  have hb := T.avail_lt hav
  rw [hdisk] at hroom
  obtain ⟨rfl, M, hopen⟩ := made_of_room ho ((Fat439.metaData_of_some ho).symm.trans hdisk) hav
    (T.dir_ne_avail hdir hav) (T.dir_lt hdir) hb Fat439Directory.newEntry_length hroom happ
  have hentry : decodeLE ((Fat439Directory.newEntry entry' name m.fs.super.avail).drop 12) =
      m.fs.super.avail := newEntry_start (by omega)
  have hnamed : ∀ x, Named m.fs x → Named fs' x ∧ x ≠ m.fs.super.avail := by
    rintro x ⟨a, ha, hx⟩
    exact ⟨⟨a, ha, (Made.owns_iff T hdir hav rfl hroom M hentry a x).mpr
      (.inl ⟨hx, fun h => ha h.1⟩)⟩, T.owned.ne hx (T.avail_owns hav) ha⟩
  have hold : ∀ t, Dir m.fs t → Dir fs' t := fun t ht =>
    (Made.dir_iff T hdir hav rfl hroom M hentry).mpr (.inl ht)
  have hlen : ∀ t, Dir m.fs t → (header m.fs.dev t).length ≤ (header fs'.dev t).length := by
    intro t ht
    rcases Nat.decEq t d.start with hne | rfl
    · rw [M.header_of_ne (T.dir_ne_avail ht hav) hne]
    · rw [M.self]; exact Nat.le_add_right ..
  have hparent : ∀ t, t ≠ m.fs.super.avail →
      (header fs'.dev t).parentDir = (header m.fs.dev t).parentDir := by
    intro t ht
    rcases Nat.decEq t d.start with hne | rfl
    · rw [M.header_of_ne ht hne]
    · rw [M.self]
  refine ⟨hT, hc, fun s j hs hj htype => ?_, ?_, fun b o' ho' => ?_, fun d' hd' => ?_, ?_⟩
  · dsimp only at hs hj htype ⊢
    have hs' := (Made.dir_iff T hdir hav rfl hroom M hentry).mp hs
    rcases (Made.entry_cases T.flat hdir hav rfl hroom M hentry hs').mp hj
      with ⟨hd, hlt, he⟩ | ⟨rfl, rfl, he⟩
    · have hne : entryStart m.fs s j ≠ m.fs.super.avail :=
        T.owned.ne (T.entry_owns hd hlt) (T.avail_owns hav) Slot.entry_ne_free
      rw [he] at htype ⊢
      rw [M.header_type hne] at htype
      rw [hparent _ hne, K.parent s j hd hlt htype]
    · rw [he, M.new]
  · dsimp only
    rw [show fs'.super.root = m.fs.super.root by rw [M.super], hparent _ (T.dir_ne_avail .root hav)]
    exact K.rootParent
  · dsimp only at ho' ⊢
    rw [hopen] at ho'
    rcases Nat.decEq b d.start with hne | rfl
    · rw [Function.update_of_ne hne] at ho'
      obtain ⟨he, hx | hx⟩ := K.cached b o' ho'
      · rw [M.header_of_ne (hnamed b hx).2 hne]
        exact ⟨he, .inl (hnamed b hx).1⟩
      · rcases Nat.decEq b m.fs.super.avail with hba | rfl
        · rw [M.header_of_ne hba hne]
          exact ⟨he, .inr ((Made.owns_iff T hdir hav rfl hroom M hentry .free b).mpr
            (.inl ⟨hx, fun h => hba h.2⟩))⟩
        · rw [M.new]
          exact ⟨hnew o' ho', .inl ⟨.entry d.start ((header m.fs.dev d.start).length / 16),
            Slot.entry_ne_free, (Made.owns_iff T hdir hav rfl hroom M hentry _ _).mpr
            (.inr ⟨rfl, rfl⟩)⟩⟩
    · rw [Function.update_self] at ho'
      cases ho'
      exact ⟨M.self.symm, .inl (hnamed _ (.of_dir T hdir)).1⟩
  · rcases List.mem_or_eq_of_mem_set hd' with hd' | rfl
    · obtain ⟨h1, h2⟩ := K.dirs d' hd'
      exact ⟨hold _ h1, Nat.le_trans h2 (Nat.div_le_div_right (hlen _ h1))⟩
    · have := (K.dirs d (List.mem_of_getElem? hd)).2
      refine ⟨hold _ hdir, ?_⟩
      rw [if_pos rfl, M.self]
      dsimp only
      omega
  · have hroot : word fs'.dev 12 = word m.fs.dev 12 := by
      refine congrArg decodeLE (slice_congr fun i hi => ?_)
      have h := M.frame (x := 0) (i := 12 + i) (by omega) (Ne.symm hav) fun h0 =>
        absurd (T.dir_inArea hdir).1 (by omega)
      rwa [Nat.zero_mul, Nat.zero_add] at h
    dsimp only
    rw [hroot, M.super]
    exact K.root

/-- An entry is dropped. -/
theorem Kept.dropped {fs₂ : Fat439} {blk k : Nat} (K : Kept m) (hdir : Dir m.fs d.start)
    (hdisk : m.fs.metaData d.start = header m.fs.dev d.start)
    (hobj : m.fs.metaData blk = header m.fs.dev blk) (D : Dropped m.fs d.start blk k fs₂.sync)
    (halone : ∀ j d₂, m.dirs[j]? = some d₂ → j ≠ i → d₂.start ≠ d.start ∧
      d₂.start ≠ blk) (hT : Tree fs₂.sync)
    (hc : AllOpen { m with fs := fs₂.sync, dirs := m.dirs.set i (d.refresh fs₂.sync) }) :
    Kept { m with fs := fs₂.sync, dirs := m.dirs.set i (d.refresh fs₂.sync) } := by
  have T := K.tree
  have F := D.freed
  have hdirs : ∀ {t}, Dir fs₂.sync t ↔ Dir m.fs t ∧ t ≠ blk :=
    F.dir_iff T hdir D.length D.entry hdisk D.leaf
  have hheader : ∀ {t}, Dir m.fs t → t ≠ blk → header fs₂.sync.dev t =
      if t = d.start then { header m.fs.dev d.start with length := k * 16 }
        else header m.fs.dev t :=
    fun ht hne => F.header_dir T hdir D.length D.entry hdisk ht hne
  have hparent : ∀ {t}, Dir m.fs t → t ≠ blk →
      (header fs₂.sync.dev t).parentDir = (header m.fs.dev t).parentDir := by
    intro t ht hne
    rw [hheader ht hne]
    split
    next he => rw [he]
    next => rfl
  have howns := F.owns_iff T hdir D.length D.entry hdisk D.leaf
  have hne := (Freed.blk_ne T hdir D.length D.entry).1
  have hself : Dir fs₂.sync d.start := hdirs.mpr ⟨hdir, hne.symm⟩
  have hblk := Freed.blk_owns T hdir D.length D.entry
  refine ⟨hT, hc, fun s j hs hj htype => ?_, ?_, fun b o ho => ?_, fun d' hd' => ?_, ?_⟩
  · dsimp only at hs hj htype ⊢
    obtain ⟨hs', hsb⟩ := hdirs.mp hs
    have he := (hdirs.mp (.entry hs hj htype))
    rw [hheader hs' hsb] at hj
    have hj' := (Freed.left_entry D.length hj).1
    have := T.entries_le hs'
    rw [F.entryStart_eq (T.dir_inArea hs') T.size (by omega)] at he htype ⊢
    rw [hparent he.1 he.2]
    refine K.parent s j hs' hj' ?_
    exact (T.dir _ he.1).1
  · dsimp only
    have hroot := (Freed.blk_ne T hdir D.length D.entry).2
    rw [show fs₂.sync.super.root = m.fs.super.root by rw [F.super], hparent .root hroot.symm]
    exact K.rootParent
  · dsimp only at ho ⊢
    obtain ⟨hmeta, hopen⟩ := F.cached hne ho
    have hfree : ∀ x, Owns fs₂.sync .free x ↔ Owns m.fs .free x ∨
        Owns m.fs (.entry d.start k) x := by
      intro x
      rw [howns]
      simp
    split at hmeta
    next he =>
      subst he
      exact ⟨by rw [hmeta, F.header_blk (T.owned.sound _ _ hblk) hobj],
        .inr ((hfree b).mpr (.inr hblk))⟩
    next hbb =>
      split at hmeta
      next he =>
        subst he
        refine ⟨by rw [hmeta, hheader hdir hne.symm, if_pos rfl, hdisk],
          .inl (.of_dir hT hself)⟩
      next hbs =>
        obtain ⟨o', ho'⟩ := (hopen.resolve_left hbb).resolve_left hbs
        obtain ⟨hdisk', hx⟩ := K.cached b o' ho'
        rw [Fat439.metaData_of_some ho'] at hmeta
        have hx' : ∃ a, Owns m.fs a b :=
          hx.elim (fun ⟨a, _, h⟩ => ⟨a, h⟩) fun h => ⟨.free, h⟩
        obtain ⟨a, ha⟩ := hx'
        refine ⟨by rw [hmeta, hdisk', F.header_of_ne (T.owned.sound _ _ ha) hbs hbb], ?_⟩
        rcases hx with ⟨a, hfa, ha⟩ | hx
        · rcases Classical.em (a = .entry d.start k) with rfl | hak
          · exact .inr ((hfree b).mpr (.inr ha))
          · exact .inl ⟨a, hfa, (howns a b).mpr (.inl ⟨ha, hak⟩)⟩
        · exact .inr ((hfree b).mpr (.inl hx))
  · rcases mem_set hd' with rfl | ⟨j, hj, hji⟩
    · refine ⟨hself, ?_⟩
      dsimp only
      rw [Fat439Directory.refresh, F.metaData_self hne, hheader hdir hne.symm, if_pos rfl]
    · obtain ⟨h1, h2⟩ := K.dirs d' (List.mem_of_getElem? hj)
      obtain ⟨hs, hb⟩ := halone j d' hj hji
      refine ⟨hdirs.mpr ⟨h1, hb⟩, ?_⟩
      dsimp only
      rw [hheader h1 hb, if_neg hs]
      exact h2
  · have hnb : fs₂.super.nBlocks = m.fs.super.nBlocks := by
      have := congrArg Super.nBlocks F.super
      exact this
    have hroot : fs₂.super.root = m.fs.super.root := by
      have := congrArg Super.root F.super
      exact this
    refine Fat439.sync_root (by rw [hnb]; exact T.size) ?_
    have := T.dir_lt .root
    omega

/-- Orderly steps. -/
theorem Kept.step (K : Kept m) (hO : Orderly m op) (h : Step m op m') : Kept m' := by
  have hc := K.allOpen.effect h.effect
  have hT := (K.tree.step K.allOpen hO.1 h).1
  cases h.effect with
  | same => exact K
  | opened h0 => exact K.openFiles hc (K.openFile (K.target_named h0).1) K.dirs
  | openedFile h0 => exact K.openFiles hc (K.openFile (K.target_named h0).1) K.dirs
  | openedDir hop h0 =>
    refine K.openFiles hc (K.openFile (K.target_named h0).1) fun d hd => ?_
    rcases List.mem_append.mp hd with hd | hd
    · exact K.dirs d hd
    · rw [List.mem_singleton] at hd
      subst hd
      have htype := (hO.2.1 hop).resolve_left h0
      rw [K.metaData_eq (K.target_named h0).1] at htype
      exact ⟨(K.target_named h0).2 htype, by rw [K.metaData_eq (K.target_named h0).1]⟩
  | closedFile hf => exact K.openFiles hc K.closeFile fun d hd => K.dirs d (List.mem_filter.mp hd).1
  | closedDir =>
    exact ⟨K.tree, hc, K.parent, K.rootParent, K.cached,
      fun d hd => K.dirs d (List.mem_of_mem_eraseIdx hd), K.root⟩
  | @freed i d entry entry' name fs₁ fs₂ hop hd h0 hobj hrem hadd =>
    subst hop
    have ht : m.target (.remove i entry entry' name) = d.lookup m.fs entry name := by
      rw [Mount.target, hd]; rfl
    rw [ht] at h0 hobj hrem hadd
    have hstop : ¬Stops m.fs d entry entry' name := fun hs => hs.not_freed h0 hobj hrem
    have D := (hO.1 d hd).resolve_left hstop
    exact K.dropped D.dir D.metaData D.object (D.dropped K.tree h0 hobj hrem hadd)
      ((hO.2.2 d hd).resolve_left hstop) hT hc
  | @made i d entry entry' name success fs' hop hd herr hav happ =>
    subst hop
    obtain ⟨hdir, hdisk, hroom⟩ := hO.1 d hd herr hav
    exact K.made hdir hdisk hroom hd hav (hO.2.2 d hd herr hav) happ hT hc

/-! ## The effect of `mkdir` -/

/-- `x` is reached from `s` along the FAT. -/
def Reaches (fs : Fat439) (s x : Nat) : Prop := x ≠ 0 ∧ ∃ k, fs.fat^[k] s = x

/-- The blocks of the root directory and of what the entries name. -/
def InFile (fs : Fat439) (x : Nat) : Prop :=
  Reaches fs fs.super.root x ∨
    ∃ s i, Dir fs s ∧ i < (header fs.dev s).length / 16 ∧ Reaches fs (entryStart fs s i) x

/-- What `mkdir(name)` is to do when it returns 0. -/
structure Makes (fs : Fat439) (d : Fat439Directory) (name : List UInt8) (d' : Fat439Directory)
    (fs' : Fat439) : Prop where
  block : ∃ b, Reaches fs fs.super.avail b ∧ (∀ entry, d'.lookup fs' entry name = b) ∧
    header fs'.dev b = ⟨TYPE_DIR, 0, d.start, b⟩
  others : ∀ entry other, 0 ∉ other → other ≠ name →
    d'.lookup fs' entry other = d.lookup fs entry other
  length : (fs'.metaData d.start).length = (fs.metaData d.start).length + 16
  super : slice fs'.dev 0 16 = slice fs.dev 0 16
  contents : ∀ x, InFile fs x → x ≠ d.start →
    slice fs'.dev (x * 512) 512 = slice fs.dev (x * 512) 512

/-- The states in which it does so: the object knows all entries, and the new one goes into the
first block. The block that is taken is another one; a file that has it, too, holds the new header
already. An entry of this name would be found first; `lookup` cannot tell it from none when it names
the block 0. -/
structure MakesWhen (fs : Fat439) (d : Fat439Directory) (name : List UInt8) : Prop where
  entries : d.entries * 16 = (fs.metaData d.start).length
  room : (fs.metaData d.start).length + 32 ≤ 512
  dots : name ≠ [0x2e, 0x2e]
  start : d.start ≠ 0 ∧ d.start < 0x800000
  avail : d.start ≠ fs.super.avail ∧ fs.super.avail < 0x800000
  taken : InFile fs fs.super.avail →
    header fs.dev fs.super.avail = ⟨TYPE_DIR, 0, d.start, fs.super.avail⟩
  unnamed : ∀ j < d.entries,
    sameName (fun o => fs.dev (Fat439Directory.entryAddr fs d.start j + o)) name 12 0 = true →
      entryStart fs d.start j ≠ 0

theorem OnChain.of_reaches {l : List Nat} (h : Linked fs.fat 0 n l) (hz : fs.fat 0 = 0)
    (hx : Reaches fs n x) : OnChain fs n x := by
  obtain ⟨h0, k, rfl⟩ := hx
  rcases Nat.lt_or_ge k l.length with hlt | hge
  · exact ⟨l, h, h.iterate hlt ▸ List.getElem_mem hlt⟩
  · obtain ⟨j, rfl⟩ := Nat.exists_eq_add_of_le' hge
    rw [Function.iterate_add_apply, h.iterate_length, Function.iterate_fixed hz] at h0
    exact absurd rfl h0

theorem InFile.named (T : Tree fs) (hx : InFile fs x) : Named fs x := by
  rcases hx with hx | ⟨s, i, hs, hi, hx⟩
  · exact ⟨.root, nofun, .of_reaches T.root_chain T.zero hx⟩
  · obtain ⟨-, l, hl⟩ := T.chain s i hs hi
    exact ⟨.entry s i, Slot.entry_ne_free, hs, hi, .of_reaches hl T.zero hx⟩

/-- An entry has the name that was stored in it, and no other one. -/
theorem sameName_stored {E : Nat → UInt8} (hlen : name.length < 12) (hz : 0 ∉ name)
    (hz' : 0 ∉ other) (hE : ∀ j (hj : j < name.length), E j = name[j])
    (hend : E name.length = 0) : sameName E other 12 0 = true ↔ other = name := by
  have hne : ∀ j (hj : j < name.length), name[j] ≠ 0 :=
    fun j hj h => hz (h ▸ List.getElem_mem hj)
  rw [sameName_iff]
  simp only [Nat.zero_add]
  constructor
  · rintro ⟨k, hk, hlt, h0, h0'⟩
    have hkl : k = name.length := by
      rcases Nat.lt_trichotomy k name.length with h | h | h
      · exact absurd ((hE k h).symm.trans h0) (hne k h)
      · exact h
      · exact absurd hend (hlt _ h).2
    subst hkl
    have hlen' : other.length = name.length := by
      rcases Nat.lt_trichotomy other.length name.length with h | h | h
      · have := (hlt _ h).1
        rw [List.getD_eq_default _ _ (Nat.le_refl _)] at this
        exact absurd this (hlt _ h).2
      · exact h
      · rw [List.getD_eq_getElem _ _ h] at h0'
        exact absurd (h0' ▸ List.getElem_mem h) hz'
    refine List.ext_getElem hlen' fun j hj hj' => ?_
    have := (hlt j hj').1
    rwa [hE j hj', List.getD_eq_getElem _ _ hj, eq_comm] at this
  · rintro rfl
    refine ⟨other.length, hlen, fun j hj => ?_, hend, List.getD_eq_default _ _ (Nat.le_refl _)⟩
    rw [hE j hj, List.getD_eq_getElem _ _ hj]
    exact ⟨rfl, hne j hj⟩

/-- The bytes of the name in a new entry. -/
theorem newEntry_getElem {j : Nat} (hj : j < 12)
    (hl : j < (Fat439Directory.newEntry entry name x).length) :
    (Fat439Directory.newEntry entry name x)[j] = put entry 0 (name ++ [0]) j := by
  have h : j < (slice (put entry 0 (name ++ [0])) 0 12).length := by rwa [slice_length]
  simp only [Fat439Directory.newEntry]
  rw [List.getElem_append_left h, getElem_slice, Nat.zero_add]

/-- The names in the new entry, and in the old ones. -/
theorem Appended.sameName_new
    (A : Appended fs d.start b L (Fat439Directory.newEntry entry name b) fs')
    (hlen : name.length < 12) (hz : 0 ∉ name) (hz' : 0 ∉ other) :
    sameName (fun o => fs'.dev (d.start * 512 + (L + 16) + o)) other 12 0 = true ↔
      other = name := by
  have hbyte : ∀ o < 12, fs'.dev (d.start * 512 + (L + 16) + o) =
      put entry 0 (name ++ [0]) o := by
    intro o ho
    have := List.getElem_of_eq A.entry (i := o) (by rw [slice_length]; omega)
    rwa [getElem_slice, newEntry_getElem ho] at this
  have hput : ∀ o (ho : o < (name ++ [0]).length), put entry 0 (name ++ [0]) o =
      (name ++ [0])[o] := by
    intro o ho
    have := put_add (m := entry) (a := 0) ho
    rwa [Nat.zero_add] at this
  refine sameName_stored hlen hz hz' (fun j hj => ?_) ?_
  · rw [hbyte j (by omega), hput j (by rw [List.length_append]; omega),
      List.getElem_append_left hj]
  · rw [hbyte _ hlen, hput _ (by simp)]
    simp

/-- A name that is not found is not one of the entries. -/
theorem Readable.search_none (T : Tree fs) (R : Readable fs d) (h0 : d.lookup fs entry name = 0)
    (hdots : name ≠ [0x2e, 0x2e]) :
    name ≠ [0x2e] ∧ Fat439Directory.search fs d name d.entries 0 entry = none := by
  have hdot : name ≠ [0x2e] := by
    rintro rfl
    rw [Fat439Directory.lookup, if_pos rfl] at h0
    exact absurd (T.dir_inArea R.dir).1 (by omega)
  rw [Fat439Directory.lookup, if_neg hdot, if_neg hdots] at h0
  refine ⟨hdot, ?_⟩
  cases hs : Fat439Directory.search fs d name d.entries 0 entry with
  | none => rfl
  | some r =>
    rw [hs] at h0
    obtain ⟨hj, he⟩ := R.search_named T R.entries hs
    exact absurd (he.symm.trans h0) (T.chain _ _ R.dir hj).1

/-- The new entry names the new block. -/
theorem Appended.entry_start
    (A : Appended fs d.start b L (Fat439Directory.newEntry entry name b) fs')
    (hb : b < 0x100000000) : word fs'.dev (d.start * 512 + (L + 16) + 12) = b :=
  (word_of_entry A.entry).trans (newEntry_start hb)

/-- A name that is not found is not one of the entries. -/
theorem MakesWhen.search_none (W : MakesWhen fs d name) (h0 : d.lookup fs entry name = 0) :
    name ≠ [0x2e] ∧ ∀ e, Fat439Directory.search fs d name d.entries 0 e = none := by
  have hdot : name ≠ [0x2e] := by
    rintro rfl
    rw [Fat439Directory.lookup, if_pos rfl] at h0
    exact W.start.1 h0
  have hread : ∀ j, 0 ≤ j → j < 0 + d.entries →
      OpenFile.readFully fs d.start (w32 (j * 16)) 16 =
      slice fs.dev (Fat439Directory.entryAddr fs d.start j) 16 := fun j _ hj => by
    have := W.entries
    have := W.room
    exact Fat439Directory.readFully_entry (by omega) (by omega)
  rw [Fat439Directory.lookup, if_neg hdot, if_neg W.dots] at h0
  refine ⟨hdot, fun e => ?_⟩
  rw [Fat439Directory.search_eq hread] at h0 ⊢
  cases hf : (List.range' 0 d.entries).find? _ with
  | none => rfl
  | some j =>
    rw [hf] at h0
    have hj := (List.mem_range'_1.mp (List.mem_of_find?_eq_some hf)).2
    have hname := List.find?_some hf
    exact absurd h0 (W.unnamed j (by omega) hname)

/-- **`mkdir` does what it is to do.** -/
theorem Appended.makes
    (A : Appended fs d.start fs.super.avail (d.entries * 16)
      (Fat439Directory.newEntry entry' name fs.super.avail) fs')
    (W : MakesWhen fs d name) (hav : fs.super.avail ≠ 0) (hlen : name.length < 12)
    (hz : 0 ∉ name) (h0 : d.lookup fs entry name = 0) :
    Makes fs d name { d with entries := d.entries + 1 } fs' := by
  obtain ⟨hne, hb⟩ := W.avail
  obtain ⟨hs0, hs⟩ := W.start
  have hent := W.entries
  have hroom := W.room
  obtain ⟨hdot, hnone⟩ := W.search_none h0
  have haddr : ∀ fs₁ : Fat439, ∀ j < 31, Fat439Directory.entryAddr fs₁ d.start j =
      d.start * 512 + (16 + j * 16) :=
    fun _ _ hj => Fat439Directory.entryAddr_of_lt hj hs
  have hlength : (fs'.metaData d.start).length = d.entries * 16 + 16 := by rw [A.metaData]
  have hread : ∀ j < d.entries + 1, OpenFile.readFully fs' d.start (w32 (j * 16)) 16 =
      slice fs'.dev (Fat439Directory.entryAddr fs' d.start j) 16 := fun j hj =>
    Fat439Directory.readFully_entry (by omega) (by omega)
  -- the old entries are found as before
  have hbytes : ∀ j < d.entries, ∀ o < 16, fs'.dev (d.start * 512 + (16 + j * 16) + o) =
      fs.dev (d.start * 512 + (16 + j * 16) + o) := fun j hj o ho => by
    rw [Nat.add_assoc]
    exact A.bytes _ _ (by omega) (fun h => absurd h hne) fun _ => by omega
  have hold : ∀ e other, Fat439Directory.search fs' { d with entries := d.entries + 1 } other
      d.entries 0 e =
      Fat439Directory.search fs d other d.entries 0 e := fun e other => by
    refine Fat439Directory.search_agree rfl
      (fun j _ hj => Fat439Directory.readFully_entry (by omega) (by omega))
        (fun j _ hj => hread j (by omega))
      (fun j _ hj => ?_) fun j _ hj => ?_
    · rw [haddr fs' j (by omega), haddr fs j (by omega)]
      exact sameName_congr fun o _ ho => hbytes j (by omega) o (by omega)
    · rw [haddr fs' j (by omega), haddr fs j (by omega)]
      exact congrArg decodeLE (slice_congr fun o ho => by
        rw [Nat.add_assoc]; exact hbytes j (by omega) _ (by omega))
  -- and the new one behind them
  have hnew : Fat439Directory.entryAddr fs' d.start (0 + d.entries) = d.start * 512 +
      (d.entries * 16 + 16) := by
    rw [haddr fs' _ (by omega)]
    omega
  have hsearch : ∀ e other, 0 ∉ other →
      Fat439Directory.search fs' { d with entries := d.entries + 1 } other (d.entries + 1) 0 e =
        (Fat439Directory.search fs d other d.entries 0 e).or
          (if other = name then some (0 + d.entries, fs.super.avail) else none) := by
    intro e other hz'
    rw [Fat439Directory.search_concat (d := { d with entries := d.entries + 1 })
      fun j _ hj => hread j (by omega), hold]
    dsimp only
    rw [hnew, A.entry_start (by omega)]
    congr 1
    exact if_congr (A.sameName_new hlen hz hz') rfl rfl
  refine ⟨⟨fs.super.avail, ⟨hav, 0, rfl⟩, fun e => ?_, A.new⟩,
    fun e other hz' hne => ?_, ?_, ?_,
    fun x hx hxs => slice_congr fun i hi => ?_⟩
  · rw [Fat439Directory.lookup, if_neg hdot, if_neg W.dots]
    dsimp only
    rw [hsearch e name hz, hnone, if_pos rfl]
    rfl
  · rw [Fat439Directory.lookup, Fat439Directory.lookup]
    dsimp only
    rw [A.metaData, hsearch e other hz', if_neg hne, Option.or_none]
  · rw [hlength, hent]
  · refine slice_congr fun i hi => ?_
    have := A.bytes 0 i (by omega) (fun h => absurd h.symm hav) fun h => absurd h.symm hs0
    rwa [Nat.zero_mul] at this
  · -- a file that has the block, too, has the same header in it
    rcases Classical.em (x = fs.super.avail ∧ i < 16) with ⟨rfl, hi'⟩ | hxi
    · have h : (header fs'.dev fs.super.avail).bytes = slice fs'.dev (fs.super.avail * 512) 16 :=
        header_bytes
      rw [A.new, ← W.taken hx, header_bytes] at h
      have := List.getElem_of_eq h (i := i) (by rw [slice_length]; omega)
      rw [getElem_slice, getElem_slice] at this
      exact this.symm
    · exact A.bytes x i hi (fun h => by omega) fun h => absurd h hxs

/-- A mounted image. -/
theorem Mounted.kept {files : List HostFile} (h : Mounted n files m) (hn : n ≤ 0x800000)
    (hroom : 1 + fatBlocks n < n) (h31 : files.length ≤ 31) : Kept m := by
  have hc : AllOpen m := by
    obtain ⟨img, -, hmount⟩ := h
    exact mount_allOpen hmount
  obtain ⟨img, cs, free, B, rfl, rfl⟩ := h.built hn hroom h31
  have hT := B.tree hn h31
  have hheader : header img.toDev img.root = ⟨TYPE_DIR, files.length * 16, 0, img.root⟩ :=
    B.header_root
  have hdir : ∀ s, Dir (img.toFs.openFile img.root) s → s = img.root := fun s hs =>
    B.dir_root hn h31 (dir_openFiles.mp hs)
  have hroot : Dir (img.toFs.openFile img.root) img.root :=
    .root
  refine ⟨hT.openFiles, hc, fun s j hs hj htype => ?_, congrArg MetaData.parentDir hheader,
    fun b o ho => ?_, fun d hd => ?_, ?_⟩
  · -- there is no directory but the root
    exact absurd (hdir _ (.entry hs hj htype)) (hT.openFiles.entryStart_ne hs hj).2
  · rcases Nat.decEq b img.root with hne | rfl
    · rw [Fat439.openFile_of_ne _ hne] at ho
      cases ho
    · rw [Fat439.openFile_self] at ho
      cases ho
      exact ⟨Fat439.metaData_of_none rfl (Nat.lt_of_lt_of_le B.root_inArea.2 hn),
        .inl (.of_dir hT.openFiles hroot)⟩
  · rw [List.mem_singleton] at hd
    subst hd
    refine ⟨hroot, ?_⟩
    dsimp only
    rw [show (img.toFs.openFile img.root).dev = img.toDev from rfl, B.length_root]
  · exact congrArg Super.root (B.layout.superAt_toDev hn)

/-- In the states of orderly runs the blocks are in order. -/
theorem Kept.makesWhen (K : Kept m) (hd : d ∈ m.dirs) (hav : m.fs.super.avail ≠ 0)
    (hent : d.entries * 16 = (m.fs.metaData d.start).length)
    (hroom : (m.fs.metaData d.start).length + 32 ≤ 512) (hdots : name ≠ [0x2e, 0x2e]) :
    MakesWhen m.fs d name where
  entries := hent
  room := hroom
  dots := hdots
  start := ⟨by have := (K.tree.dir_inArea (K.dirs d hd).1).1; omega,
    K.tree.dir_lt (K.dirs d hd).1⟩
  avail := ⟨K.tree.dir_ne_avail (K.dirs d hd).1 hav, K.tree.avail_lt hav⟩
  taken h := absurd (K.tree.avail_owns hav) ((h.named K.tree).not_free K.tree)
  unnamed j hj _ := by
    have := (K.dirs d hd).2
    exact (K.tree.chain _ _ (K.dirs d hd).1 (by omega)).1

end

end K439.Fs
