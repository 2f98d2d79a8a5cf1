import K439.Fs.Mount
import Mathlib.Data.List.Perm.Basic

/-!
# What the calls do

The effects that an operation can have on a mounted file system, and the references to the open
files that the objects hold.
-/

namespace K439.Fs

/-- The block of the object that the operation opens, or 0. -/
def Mount.target (m : Mount) : Op → Nat
  | .remove i entry _ name | .lookupDirectory i entry name | .lookupFile i entry name =>
    (m.dirs[i]?.map (·.lookup m.fs entry name)).getD 0
  | .lookupDirectoryPath i entry path => (m.dirs[i]?.map (·.lookupPath m.fs entry path 0)).getD 0
  | _ => 0

/-- The operation makes a directory object. -/
def Op.OpensDirectory : Op → Prop
  | .lookupDirectory .. | .lookupDirectoryPath .. => True
  | _ => False

/-- The state in which `mkdir` appends the entry: a block is taken and holds the new header. -/
def Fat439Directory.taken (fs : Fat439) (d : Fat439Directory) : Fat439 :=
  let metaData : MetaData :=
    { type := TYPE_DIR, length := 0, parentDir := d.start, currentBlk := fs.super.avail }
  { fs.remNextAvail.2 with
    dev := (BlockDevice.write fs.dev (w32 (fs.super.avail * 512)) metaData.bytes).2 }

/-- What an operation can do. -/
inductive Effect (m : Mount) (op : Op) : Mount → Prop
  | same : Effect m op m
  | opened : m.target op ≠ 0 → Effect m op { m with fs := m.fs.openFile (m.target op) }
  | openedFile : m.target op ≠ 0 → Effect m op
      { m with fs := m.fs.openFile (m.target op), files := m.files ++ [⟨m.target op, 0⟩] }
  | openedDir : op.OpensDirectory → m.target op ≠ 0 → Effect m op
      { m with fs := m.fs.openFile (m.target op),
               dirs := m.dirs ++ [⟨m.target op, (m.fs.metaData (m.target op)).length / 16⟩] }
  | made {i : Nat} {d : Fat439Directory} {entry entry' : Nat → UInt8} {name : List UInt8}
      {success : Int} {fs' : Fat439} :
      op = .mkdir i entry entry' name → m.dirs[i]? = some d →
      d.mkdirError m.fs entry name = none → m.fs.super.avail ≠ 0 →
      OpenFile.append (d.taken m.fs) d.start
        (Fat439Directory.newEntry entry' name m.fs.super.avail) = (success, fs') →
      Effect m op { m with fs := fs', dirs := m.dirs.set i <|
        { d with entries := if success = 0 then d.entries + 1 else d.entries } }
  | freed {i : Nat} {d : Fat439Directory} {entry entry' : Nat → UInt8} {name : List UInt8}
      {fs₁ fs₂ : Fat439} :
      op = .remove i entry entry' name → m.dirs[i]? = some d → m.target op ≠ 0 →
      ¬((m.fs.metaData (m.target op)).type = TYPE_DIR ∧
        (m.fs.metaData (m.target op)).length ≠ 0) →
      OpenFile.remFromOffset (m.fs.openFile (m.target op)) d.start
        (d.lookupEntry (m.fs.openFile (m.target op)) entry' name * 16 + 16).toNat 16 =
          (.ret 0, fs₁) →
      (OpenFile.resize fs₁ (m.target op) 0).addAvailBlk (m.target op) = some fs₂ →
      Effect m op { m with fs := fs₂.sync, dirs := m.dirs.set i (d.refresh fs₂.sync) }
  | closedFile {j : Nat} {f : Fat439File} : m.files[j]? = some f → Effect m op
      { m with fs := m.fs.closeFile f.openFile, files := m.files.eraseIdx j }.live
  | closedDir {i : Nat} : Effect m op { m with dirs := m.dirs.eraseIdx i }

/-- The blocks that the objects refer to. -/
def Mount.refs (m : Mount) : List Nat := m.dirs.map (·.start) ++ m.files.map (·.openFile)

/-- Every object refers to an open file. -/
def AllOpen (m : Mount) : Prop := ∀ s ∈ m.refs, m.fs.openFiles s ≠ none

variable {fs fs' fs₁ fs₂ : Fat439} {d d' : Fat439Directory} {entry entry' : Nat → UInt8}
  {name buf : List UInt8} {m m' : Mount} {op : Op} {o : OpenFile} {code : Int}
  {start off n i L blk tot tot' fuel : Nat}

theorem Fat439.remNextAvail_openFiles : fs.remNextAvail.2.openFiles = fs.openFiles := by
  rw [remNextAvail]
  dsimp only
  split <;> rfl

namespace OpenFile

theorem writeLoop_nil : writeLoop fuel fs blk [] tot = (true, fs, tot) := by
  cases fuel <;> rfl

/-- An entry that goes behind the header of a block and not over its end is written at once. -/
theorem append_entry (ho : fs.openFiles start = some o) (hL : o.metaData.length = L)
    (hb : buf.length = 16) (hoff : 16 ≤ (L + 16) % 512 ∧ (L + 16) % 512 ≤ 496)
    (hlt : L + 16 < 0x100000000) :
    append fs start buf = (0,
      { fs with
        openFiles := Function.update fs.openFiles start
          (some { o with metaData := { o.metaData with length := L + 16 } }),
        dev := put (put fs.dev (w32 (fs.fat^[(L + 16) / 512] start * 512 + (L + 16) % 512)) buf)
          (w32 (start * 512)) { o.metaData with length := L + 16 }.bytes }) := by
  have hmod : w32 (fs.fat^[(L + 16) / 512] start * 512 + (L + 16) % 512) % 512 =
      (L + 16) % 512 := by
    unfold w32; omega
  have hlen : min 16 (w32 (0x100000000 + 512 - (L + 16))) = 16 := by unfold w32; omega
  have hmeta : ∀ dev, Fat439.metaData { fs with dev := dev } start = o.metaData := fun dev =>
    Fat439.metaData_of_some ho
  rw [append, Fat439.metaData_of_some ho, hL, write, w32_of_lt hlt, hb, hlen]
  dsimp only
  rw [List.take_of_length_le (by omega), BlockDevice.write_eq_of_le (by omega), hb]
  dsimp only
  rw [List.drop_of_length_le (by omega), writeLoop_nil]
  dsimp only
  rw [hmeta, hL, w32_of_lt hlt, if_pos rfl]
  congr 1
  exact resize_eq ho

/-- The loop of `write` does not touch the open files. -/
theorem writeLoop_openFiles {done : Bool} (h : writeLoop fuel fs blk buf tot = (done, fs', tot'))
    (hf : buf.length ≤ fuel) (hb : buf.length ≤ 512) :
    fs'.openFiles = fs.openFiles ∧ tot' = if done then tot + buf.length else tot := by
  cases fuel with
  | zero =>
    cases h
    exact ⟨rfl, by simp [Nat.le_zero.mp hf]⟩
  | succ fuel =>
    rcases Nat.eq_zero_or_pos buf.length with h0 | hpos
    · obtain rfl := List.length_eq_zero_iff.mp h0
      rw [writeLoop_nil] at h
      cases h
      exact ⟨rfl, rfl⟩
    -- a round that has a block writes everything
    have hround : ∀ (x : Nat) (fs₁ : Fat439), fs₁.openFiles = fs.openFiles →
        (if x = 0 then (false, fs₁, tot)
          else writeLoop fuel
            { fs₁ with dev := (BlockDevice.write fs₁.dev (w32 (x * 512))
              (buf.take (min buf.length 512))).2 }
            x (buf.drop (BlockDevice.write fs₁.dev (w32 (x * 512))
              (buf.take (min buf.length 512))).1)
            (tot + (BlockDevice.write fs₁.dev (w32 (x * 512))
              (buf.take (min buf.length 512))).1)) =
          (done, fs', tot') →
        fs'.openFiles = fs.openFiles ∧ tot' = if done then tot + buf.length else tot := by
      intro x fs₁ hopen h
      split at h
      · cases h; exact ⟨hopen, rfl⟩
      · have hz : w32 (x * 512) % 512 = 0 := by unfold w32; omega
        rw [Nat.min_eq_left hb, List.take_of_length_le (Nat.le_refl _),
          BlockDevice.write_eq_of_le (by omega)] at h
        dsimp only at h
        rw [List.drop_of_length_le (Nat.le_refl _), writeLoop_nil] at h
        cases h
        exact ⟨hopen, rfl⟩
    have hopen : (fs.remNextAvail.2.setNextBlk blk fs.remNextAvail.1).openFiles = fs.openFiles :=
      Fat439.remNextAvail_openFiles
    rw [writeLoop, if_pos hpos] at h
    rcases Nat.decEq (fs.fat blk) 0 with hne | heq
    · simp only [if_neg hne] at h
      exact hround (fs.fat blk) fs rfl (by rw [if_neg hne]; exact h)
    · simp only [heq, if_true] at h
      exact hround _ _ hopen h

/-- An append of an entry that fails leaves the length as it is. -/
theorem append_openFiles (ho : fs.openFiles start = some o) (hL : o.metaData.length = L)
    (hb : buf.length = 16) (hmod : L % 16 = 0) (hlt : L + 16 < 0x100000000)
    (h : append fs start buf = (code, fs')) :
    fs'.openFiles =
    Function.update fs.openFiles start
    (some { o with metaData := { o.metaData with length := if code = 0 then L + 16 else L } }) := by
  rw [append, Fat439.metaData_of_some ho, hL, write, w32_of_lt hlt, hb] at h
  dsimp only at h
  generalize hdev : BlockDevice.write fs.dev _ _ = r at h
  -- the first segment is the whole entry, or empty
  have hr : r.1 = 0 ∨ r.1 = 16 := by
    have hoff : w32 (fs.fat^[(L + 16) / 512] start * 512 + (L + 16) % 512) % 512 =
        (L + 16) % 512 := by
      unfold w32; omega
    rw [← hdev, BlockDevice.write_eq]
    dsimp only
    rw [hoff, List.length_take, hb]
    rcases Nat.decEq (L + 16) 512 with hne | he
    · have : 16 ≤ w32 (0x100000000 + 512 - (L + 16)) := by unfold w32; omega
      omega
    · have : w32 (0x100000000 + 512 - (L + 16)) = 0 := by rw [he]; rfl
      omega
  rcases hloop : writeLoop 16 { fs with dev := r.2 } (fs.fat^[(L + 16) / 512] start)
    (buf.drop r.1) r.1
    with ⟨done, fs₁, tot⟩
  obtain ⟨hopen, htot⟩ := writeLoop_openFiles hloop (by simp [hb]) (by simp [hb]; omega)
  rw [hloop] at h
  dsimp only at h
  have ho₁ : fs₁.openFiles start = some o := by rw [hopen]; exact ho
  have hsz : w32 ((fs₁.metaData start).length + tot) = if done = true then L + 16 else L := by
    rw [Fat439.metaData_of_some ho₁, hL, htot, List.length_drop, hb]
    rcases hr with hr | hr
    · rw [hr]
      split
      all_goals rw [w32_of_lt]; all_goals omega
    · rw [hr, List.drop_of_length_le (by omega), writeLoop_nil] at hloop
      cases hloop
      rw [hr, if_pos rfl, if_pos rfl, w32_of_lt (by omega)]
  have hres : (resize fs₁ start (w32 ((fs₁.metaData start).length + tot))).openFiles =
      Function.update fs.openFiles start
        (some { o with metaData := { o.metaData with length := if done = true then L +
          16 else L } }) := by
    rw [hsz]
    change Function.update fs₁.openFiles start (some { fs₁.fileAt start with
      metaData := { (fs₁.fileAt start).metaData with length := _ } }) = _
    rw [hopen, Fat439.fileAt_eq ho₁]
  cases done with
  | true => cases h; exact hres
  | false => cases h; exact hres

end OpenFile

namespace Fat439Directory

theorem taken_eq (h : fs.super.avail ≠ 0) : taken fs d =
    { fs with
      dev := put fs.dev (w32 (fs.super.avail * 512)) (MetaData.bytes
        { type := TYPE_DIR, length := 0, parentDir := d.start, currentBlk := fs.super.avail }),
      super := { fs.super with avail := fs.fat fs.super.avail },
      fat := Function.update fs.fat fs.super.avail 0 } := by
  have hz : w32 (fs.super.avail * 512) % 512 = 0 := by unfold w32; omega
  rw [taken, Fat439.remNextAvail]
  dsimp only
  rw [if_neg h, BlockDevice.write_eq_of_le (by rw [hz]; simp)]

/-- After its tests `mkdir` takes a block, when there is one, and appends the entry. -/
theorem mkdir_takes (herr : d.mkdirError fs entry name = none) (hav : fs.super.avail ≠ 0)
    (h : d.mkdir fs entry entry' name = (code, d', fs')) :
    ∃ success, OpenFile.append (taken fs d) d.start (newEntry entry' name fs.super.avail) =
    (success, fs') ∧
      code = (if success = 0 then 0 else ERR_DEVWRITE) ∧
      d' = { d with entries := if success = 0 then d.entries + 1 else d.entries } := by
  have hrem : fs.remNextAvail = (fs.super.avail, fs.remNextAvail.2) := by
    rw [Fat439.remNextAvail]; dsimp only; rw [if_neg hav]
  have hdev : fs.remNextAvail.2.dev = fs.dev := by
    rw [Fat439.remNextAvail]; dsimp only; rw [if_neg hav]
  rw [mkdir, herr] at h
  dsimp only at h
  rw [hrem] at h
  dsimp only at h
  rw [if_neg hav, hdev] at h
  rcases happ : OpenFile.append (taken fs d) d.start (newEntry entry' name fs.super.avail)
    with ⟨success, fs₁⟩
  rw [taken] at happ
  rw [happ] at h
  dsimp only at h
  refine ⟨success, ?_⟩
  split at h
  next hs => cases h; exact ⟨rfl, (if_neg hs).symm, by rw [if_neg hs]⟩
  next hs =>
    rw [not_not] at hs
    cases h
    exact ⟨rfl, (if_pos hs).symm, by rw [if_pos hs]⟩

/-- The three ways of `mkdir`. -/
theorem mkdir_cases (h : d.mkdir fs entry entry' name = (code, d', fs')) :
    (code < 0 ∧ d' = d ∧ fs' = fs) ∨
    d.mkdirError fs entry name = none ∧ fs.super.avail ≠ 0 ∧
      ∃ success, OpenFile.append (taken fs d) d.start (newEntry entry' name fs.super.avail) =
          (success, fs') ∧
        code = (if success = 0 then 0 else ERR_DEVWRITE) ∧
        d' = { d with entries := if success = 0 then d.entries + 1 else d.entries } := by
  cases hnone : d.mkdirError fs entry name with
  | some c =>
    rw [mkdir, hnone] at h
    cases h
    refine .inl ⟨?_, rfl, rfl⟩
    rw [mkdirError] at hnone
    repeat' split at hnone
    all_goals cases hnone <;> decide
  | none =>
    rcases Nat.decEq fs.super.avail 0 with hne | h0
    · exact .inr ⟨rfl, hne, mkdir_takes hnone hne h⟩
    · have hrem : fs.remNextAvail = (0, fs) := by
        rw [Fat439.remNextAvail]; dsimp only; rw [if_pos h0]
      rw [mkdir, hnone] at h
      dsimp only at h
      rw [hrem] at h
      cases h
      exact .inl ⟨by decide, rfl, rfl⟩

/-- What `mkdir` has made sure of before it takes a block. -/
theorem mkdirError_none (h : d.mkdirError fs entry name = none) :
    name.length < 12 ∧ d.lookup fs entry name = 0 := by
  rw [mkdirError] at h
  split at h
  · cases h
  split at h
  · cases h
  next hlen =>
    split at h
    · cases h
    split at h
    · cases h
    next h0 => exact ⟨by omega, not_not.mp h0⟩

/-- Opening a file does not change what a search finds. -/
theorem lookupEntry_openFile :
    d.lookupEntry (fs.openFile blk) entry name = d.lookupEntry fs entry name := by
  have hsearch : search (fs.openFile blk) d name d.entries 0 entry =
      search fs d name d.entries 0 entry :=
    search_congr rfl fun j _ _ => OpenFile.readFully_congr fun n =>
      OpenFile.read_congr rfl rfl (by rw [Fat439.metaData_openFile])
  rw [lookupEntry, lookupEntry, hsearch]

theorem newEntry_length {x : Nat} : (newEntry entry name x).length = 16 := by
  rw [newEntry, List.length_append, slice_length, le32_length]

end Fat439Directory

theorem OpenFile.remFromOffset_code {o : Outcome} (h : remFromOffset fs start off n = (o, fs')) :
    o = .killed ∧ fs' = fs ∨ o = .ret 0 := by
  unfold remFromOffset at h
  dsimp only at h
  repeat' split at h
  all_goals cases h
  · exact .inr rfl
  · exact .inr rfl
  · exact .inl ⟨rfl, rfl⟩
  · exact .inr rfl

/-- The ways of `remove`: it does nothing, it only opens the object, or it frees its blocks. -/
theorem Fat439Directory.remove_cases {o : Outcome}
    (h : d.remove fs entry entry' name = some (o, d', fs')) :
    d' = d ∧ fs' = fs ∨ d.lookup fs entry name ≠ 0 ∧
      (d' = d ∧ fs' = fs.openFile (d.lookup fs entry name) ∨
      o = .ret 0 ∧ ¬((fs.metaData (d.lookup fs entry name)).type = TYPE_DIR ∧
        (fs.metaData (d.lookup fs entry name)).length ≠ 0) ∧
      ∃ fs₁ fs₂, OpenFile.remFromOffset (fs.openFile (d.lookup fs entry name)) d.start
          (d.lookupEntry (fs.openFile (d.lookup fs entry name)) entry' name * 16 + 16).toNat 16 =
            (.ret 0, fs₁) ∧
        (OpenFile.resize fs₁ (d.lookup fs entry name) 0).addAvailBlk (d.lookup fs entry name) =
          some fs₂ ∧ d' = d.refresh fs₂.sync ∧ fs' = fs₂.sync) := by
  unfold remove at h
  dsimp only at h
  split at h
  · cases h; exact .inl ⟨rfl, rfl⟩
  next h0 =>
    refine .inr ⟨h0, ?_⟩
    rw [Fat439.metaData_openFile] at h
    split at h
    · cases h; exact .inl ⟨rfl, rfl⟩
    next hdir =>
      split at h
      · cases h; exact .inl ⟨rfl, rfl⟩
      · split at h
        next fs₁ hrem =>
          cases h
          rcases OpenFile.remFromOffset_code hrem with ⟨-, rfl⟩ | hc
          · exact .inl ⟨rfl, rfl⟩
          · cases hc
        next c fs₁ hrem =>
          obtain rfl : c = 0 := by
            rcases OpenFile.remFromOffset_code hrem with ⟨hc, -⟩ | hc
            · cases hc
            · exact Outcome.ret.inj hc
          rw [if_pos (by simp)] at h
          obtain ⟨fs₂, hadd, h⟩ := Option.bind_eq_some_iff.mp h
          cases h
          exact .inr ⟨rfl, hdir, fs₁, fs₂, hrem, hadd, rfl, rfl⟩

theorem set_self {α : Type _} {l : List α} {x : α} (h : l[i]? = some x) : l.set i x = l := by
  obtain ⟨hi, rfl⟩ := List.getElem?_eq_some_iff.mp h
  exact List.set_getElem_self hi

/-- An object is replaced by one for the same block. -/
theorem map_start_set {l : List Fat439Directory} {d d' : Fat439Directory} (hd : l[i]? = some d)
    (hs : d'.start = d.start) : (l.set i d').map (·.start) = l.map (·.start) := by
  rw [List.map_set, hs]
  exact set_self (by rw [List.getElem?_map, hd]; rfl)

/-- An object of a list in which one is replaced. -/
theorem mem_set {α : Type _} {l : List α} {x y : α} (h : y ∈ l.set i x) :
    y = x ∨ ∃ j, l[j]? = some y ∧ j ≠ i := by
  obtain ⟨j, hj⟩ := List.mem_iff_getElem?.mp h
  rcases Nat.decEq j i with hne | rfl
  · rw [List.getElem?_set_ne (Ne.symm hne)] at hj
    exact .inr ⟨j, hj, hne⟩
  · rw [List.getElem?_set_self'] at hj
    obtain ⟨_, _, he⟩ := Option.map_eq_some_iff.mp hj
    exact .inl he.symm

/-- Every operation has one of the effects. -/
theorem Step.effect (h : Step m op m') : Effect m op m' := by
  obtain ⟨r, h⟩ := h
  have hdir : op.OpensDirectory → ∀ x, m.target op = x →
      (r, m') = (if x = 0 then m.addDir (none, m.fs)
        else m.addDir (some (Fat439Directory.create m.fs x).1,
          (Fat439Directory.create m.fs x).2)) →
      Effect m op m' := by
    rintro hop x rfl h
    split at h
    · cases h
      simp only [Option.toList, List.append_nil]
      exact .same
    next h0 =>
      cases h
      simp only [Fat439Directory.create, Fat439.metaData_openFile]
      exact .openedDir hop h0
  cases op with
  | lookup i entry name =>
    obtain ⟨d, -, h⟩ := Option.bind_eq_some_iff.mp h
    cases h
    exact .same
  | mkdir i entry entry' name =>
    obtain ⟨d, hd, h⟩ := Option.bind_eq_some_iff.mp h
    cases h
    rcases Fat439Directory.mkdir_cases rfl with ⟨-, h1, h2⟩ |
      ⟨herr, hav, success, happ, -, hd'⟩
    · rw [h1, h2, set_self hd]
      exact .same
    · rw [hd']
      exact .made rfl hd herr hav happ
  | remove i entry entry' name =>
    obtain ⟨d, hd, h⟩ := Option.bind_eq_some_iff.mp h
    obtain ⟨⟨o, d', fs'⟩, hrem, h⟩ := Option.bind_eq_some_iff.mp h
    cases h
    have ht : m.target (.remove i entry entry' name) = d.lookup m.fs entry name := by
      rw [Mount.target, hd]; rfl
    rcases Fat439Directory.remove_cases hrem with ⟨rfl, rfl⟩ | ⟨h0, h⟩
    · rw [set_self hd]
      exact .same
    rw [← ht] at h0 h
    rcases h with ⟨rfl, rfl⟩ | ⟨-, hobj, fs₁, fs₂, hoff, hadd, rfl, rfl⟩
    · rw [set_self hd]
      exact .opened h0
    · exact .freed rfl hd h0 hobj hoff hadd
  | lookupDirectory i entry name =>
    obtain ⟨d, hd, h⟩ := Option.bind_eq_some_iff.mp h
    refine hdir trivial (d.lookup m.fs entry name) (by rw [Mount.target, hd]; rfl)
      ((Option.some.inj h).symm.trans ?_)
    simp only [Fat439Directory.lookupDirectory]
    split <;> rfl
  | lookupDirectoryPath i entry path =>
    obtain ⟨d, hd, h⟩ := Option.bind_eq_some_iff.mp h
    refine hdir trivial (d.lookupPath m.fs entry path 0) (by rw [Mount.target, hd]; rfl)
      ((Option.some.inj h).symm.trans ?_)
    simp only [Fat439Directory.lookupDirectoryPath]
    split <;> rfl
  | lookupFile i entry name =>
    obtain ⟨d, hd, h⟩ := Option.bind_eq_some_iff.mp h
    have ht : m.target (.lookupFile i entry name) = d.lookup m.fs entry name := by
      rw [Mount.target, hd]; rfl
    simp only [Fat439Directory.lookupFile, ← ht] at h
    split at h
    · cases h
      simp only [Option.toList, List.append_nil]
      exact .same
    next h0 =>
      cases h
      exact .openedFile h0
  | closeFile j =>
    obtain ⟨f, hf, h⟩ := Option.bind_eq_some_iff.mp h
    cases h
    exact .closedFile hf
  | closeDirectory i =>
    obtain ⟨d, -, h⟩ := Option.bind_eq_some_iff.mp h
    cases h
    exact .closedDir

/-! ## References -/

namespace OpenFile

theorem append_resize (hb : buf.length ≤ 512) (h : append fs start buf = (code, fs')) :
    ∃ fs₁ newsz, fs₁.openFiles = fs.openFiles ∧
    fs'.openFiles = (resize fs₁ start newsz).openFiles := by
  rw [append, write] at h
  dsimp only at h
  generalize BlockDevice.write fs.dev _ _ = r at h
  rcases hloop : writeLoop buf.length { fs with dev := r.2 }
    (fs.fat^[w32 ((fs.metaData start).length + 16) / 512] start)
      (buf.drop r.1) r.1 with ⟨done, fs₁, tot⟩
  obtain ⟨hopen, -⟩ := writeLoop_openFiles hloop (by simp) (by rw [List.length_drop]; omega)
  rw [hloop] at h
  dsimp only at h
  refine ⟨fs₁, w32 ((fs₁.metaData start).length + tot), hopen, ?_⟩
  cases done <;> cases h <;> rfl

/-- `remFromOffset` resizes the file. -/
theorem remFromOffset_resize (h : remFromOffset fs start off n = (.ret 0, fs')) :
    ∃ fs₁ newsz, fs₁.openFiles = fs.openFiles ∧
    fs'.openFiles = (resize fs₁ start newsz).openFiles ∧
      ((fs.metaData start).length < n ∧ newsz = 0 ∨
      n ≤ (fs.metaData start).length ∧ (fs.metaData start).length ≤ w32 (n + off) ∧
      newsz = w32 off ∨
      w32 (n + off) < (fs.metaData start).length ∧ newsz = (fs.metaData start).length - n) := by
  unfold remFromOffset at h
  dsimp only at h
  split at h
  next h1 => cases h; exact ⟨fs, 0, rfl, rfl, .inl ⟨h1, rfl⟩⟩
  next h1 =>
    split at h
    next h2 =>
      cases h; exact ⟨fs, w32 off, rfl, rfl, .inr (.inl ⟨Nat.le_of_not_lt h1, h2, rfl⟩)⟩
    next h2 =>
      split at h
      · cases h
      · cases h
        refine ⟨{ fs with dev := _ }, _, ?_, rfl, .inr (.inr ⟨Nat.lt_of_not_ge h2, rfl⟩)⟩
        rfl

end OpenFile

namespace AllOpen

variable {p : OpenFile} {x : Nat}

/-- The directory of an object is open. -/
theorem isOpen (hm : AllOpen m) (hd : d ∈ m.dirs) : ∃ o, m.fs.openFiles d.start = some o :=
  Option.ne_none_iff_exists'.mp (hm _ (List.mem_append_left _ (List.mem_map_of_mem hd)))

/-- Nothing but a close deletes an `OpenFile`. -/
theorem update (h : fs'.openFiles = Function.update fs.openFiles start (some p))
    (hx : fs.openFiles x ≠ none) : fs'.openFiles x ≠ none := by
  rw [h]
  rcases Nat.decEq x start with hne | rfl
  · rwa [Function.update_of_ne hne]
  · rw [Function.update_self]
    exact Option.some_ne_none p

theorem effect (hm : AllOpen m) (h : Effect m op m') : AllOpen m' := by
  intro s hs
  cases h with
  | same => exact hm s hs
  | opened => exact update rfl (hm s hs)
  | openedFile =>
    simp only [Mount.refs, List.map_append, List.map_cons, List.map_nil, List.mem_append,
      List.mem_singleton] at hs
    rcases hs with hs | hs | rfl
    · exact update rfl (hm s (List.mem_append_left _ hs))
    · exact update rfl (hm s (List.mem_append_right _ hs))
    · rw [Fat439.openFile_self]
      exact Option.some_ne_none _
  | openedDir =>
    simp only [Mount.refs, List.map_append, List.map_cons, List.map_nil, List.mem_append,
      List.mem_singleton] at hs
    rcases hs with (hs | rfl) | hs
    · exact update rfl (hm s (List.mem_append_left _ hs))
    · rw [Fat439.openFile_self]
      exact Option.some_ne_none _
    · exact update rfl (hm s (List.mem_append_right _ hs))
  | @made i d _ _ _ success fs' hop hd herr hav happ =>
    obtain ⟨fs₁, newsz, h₁, h₂⟩ := OpenFile.append_resize
      (by rw [Fat439Directory.newEntry_length]; omega) happ
    rw [Mount.refs, map_start_set hd (by rfl)] at hs
    dsimp only
    rw [h₂]
    refine update rfl ?_
    rw [h₁, Fat439Directory.taken]
    dsimp only
    rw [Fat439.remNextAvail_openFiles]
    exact hm s hs
  | @freed i d _ _ _ fs₁ fs₂ hop hd h0 hobj hrem hadd =>
    obtain ⟨fs₀, newsz, h₁, h₂, -⟩ := OpenFile.remFromOffset_resize hrem
    obtain ⟨last, -, rfl⟩ := Fat439.addAvailBlk_eq hadd
    rw [Mount.refs, map_start_set hd (by rfl)] at hs
    have hfs₀ : fs₀.openFiles s ≠ none := by
      rw [h₁]
      exact update rfl (hm s hs)
    have hfs₁ : fs₁.openFiles s ≠ none := by
      rw [h₂]
      exact update rfl hfs₀
    exact update rfl hfs₁
  | closedFile =>
    rcases List.mem_append.mp hs with hs | hs
    all_goals
      obtain ⟨x, hx, rfl⟩ := List.mem_map.mp hs
      exact Option.isSome_iff_ne_none.mp (List.mem_filter.mp hx).2
  | closedDir =>
    rcases List.mem_append.mp hs with hs | hs
    · exact hm s (List.mem_append_left _ (((List.eraseIdx_sublist ..).map _).subset hs))
    · exact hm s (List.mem_append_right _ hs)

end AllOpen

theorem mount_eq {dev : Dev} (h : mount dev = some m) : ∃ fs, Fat439.create dev = some fs ∧
    m = { fs := fs.openFile fs.super.root,
          dirs := [⟨fs.super.root, (fs.metaData fs.super.root).length / 16⟩], files :=
            [] } := by
  obtain ⟨fs, hfs, h⟩ := Option.bind_eq_some_iff.mp h
  refine ⟨fs, hfs, ?_⟩
  cases h
  simp only [Fat439.metaData_openFile]

/-- A mounted file system has opened its root directory. -/
theorem mount_allOpen {dev : Dev} (h : mount dev = some m) : AllOpen m := by
  obtain ⟨fs, -, rfl⟩ := mount_eq h
  intro s hs
  obtain rfl := List.mem_singleton.mp hs
  rw [Fat439.openFile_self]
  exact Option.some_ne_none _

end K439.Fs
