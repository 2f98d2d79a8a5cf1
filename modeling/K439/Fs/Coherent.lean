import K439.Fs.FullDisk

/-!
# Directory objects

Every directory object counts the entries of its directory. `mkdir` and `remove` bring the count of
their own object up to date, but not those of the other objects for the same directory.
-/

namespace K439.Fs

/-- Every object knows the number of entries. -/
def Coherent (m : Mount) : Prop :=
  ∀ d ∈ m.dirs, d.entries = (m.fs.metaData d.start).length / 16

/-- An operation that changes the number of entries of a directory is called through the only object
for it; a removal does not change it where the name has one character less than there are
entries. -/
def Alone (m : Mount) : Op → Prop
  | .mkdir i entry _ name => ∀ d, m.dirs[i]? = some d → d.mkdirError m.fs entry name = none →
      m.fs.super.avail ≠ 0 →
      (m.fs.metaData d.start).length % 16 = 0 ∧
      (m.fs.metaData d.start).length + 16 < 0x100000000 ∧
      (¬LeavesNoBlock m.fs d → ∀ j d₂, m.dirs[j]? = some d₂ → j ≠ i → d₂.start ≠ d.start)
  | .remove i entry entry' name => ∀ d, m.dirs[i]? = some d → Stops m.fs d entry entry' name ∨
      ∀ j d₂, m.dirs[j]? = some d₂ → j ≠ i →
        (d₂.start = d.lookup m.fs entry name → (m.fs.metaData d₂.start).length < 16) ∧
        (d₂.start = d.start → d.lookupEntry m.fs entry' name + 1 =
          (m.fs.metaData d.start).length / 16 ∧ 16 ≤ (m.fs.metaData d.start).length ∧
          (m.fs.metaData d.start).length + 16 < 0x100000000)
  | _ => True

section

variable {fs fs' : Fat439} {d : Fat439Directory} {m m' : Mount} {op : Op} {o : OpenFile}
  {i s t n : Nat}

/-- What is known about a file that stays open is in its object. -/
theorem Fat439.metaData_congr (ho : fs.openFiles t = some o)
    (h : fs'.openFiles t = fs.openFiles t) : fs'.metaData t = fs.metaData t := by
  rw [metaData_of_some (h.trans ho), metaData_of_some ho]

/-- The lengths after a removal. -/
theorem freed_length {fs₁ fs₂ : Fat439} {off blk : Nat}
    (hrem : OpenFile.remFromOffset (fs.openFile blk) s off 16 = (.ret 0, fs₁))
    (hadd : (OpenFile.resize fs₁ blk 0).addAvailBlk blk = some fs₂) :
    ∃ newsz, (∀ t o, fs.openFiles t = some o → (fs₂.sync.metaData t).length =
        if t = blk then 0 else if t = s then newsz else o.metaData.length) ∧
      ((fs.metaData s).length < 16 ∧ newsz = 0 ∨
      16 ≤ (fs.metaData s).length ∧ (fs.metaData s).length ≤ w32 (16 + off) ∧
      newsz = w32 off ∨
      w32 (16 + off) < (fs.metaData s).length ∧ newsz = (fs.metaData s).length - 16) := by
  obtain ⟨fs₀, newsz, h₀, h₁, hsz⟩ := OpenFile.remFromOffset_resize hrem
  obtain ⟨last, -, h₂⟩ := Fat439.addAvailBlk_eq hadd
  rw [Fat439.metaData_openFile] at hsz
  refine ⟨newsz, fun t o ho => ?_, hsz⟩
  have hopen : fs₂.sync.openFiles = (OpenFile.resize fs₁ blk 0).openFiles := by rw [h₂]; rfl
  split
  next he =>
    subst he
    rw [Fat439.metaData_of_some (by rw [hopen]; exact OpenFile.resize_openFiles_self)]
  next hblk =>
    have ho₁ : fs₂.sync.openFiles t = (OpenFile.resize fs₀ s newsz).openFiles t := by
      rw [hopen, OpenFile.resize_openFiles_of_ne hblk, h₁]
    split
    next he =>
      subst he
      rw [Fat439.metaData_of_some (ho₁.trans OpenFile.resize_openFiles_self)]
    next hs =>
      rw [OpenFile.resize_openFiles_of_ne hs, h₀, Fat439.openFile_of_ne _ hblk, ho] at ho₁
      rw [Fat439.metaData_of_some ho₁]

/-- Operations that are alone keep the objects coherent. -/
theorem Coherent.step (hm : Coherent m) (hc : AllOpen m) (ha : Alone m op) (h : Step m op m') :
    Coherent m' := by
  intro d' hd'
  cases h.effect with
  | same => exact hm d' hd'
  | opened => rw [Fat439.metaData_openFile]; exact hm d' hd'
  | openedFile => rw [Fat439.metaData_openFile]; exact hm d' hd'
  | openedDir =>
    rw [Fat439.metaData_openFile]
    rcases List.mem_append.mp hd' with hd' | hd'
    · exact hm d' hd'
    · rw [List.mem_singleton] at hd'
      subst hd'
      rfl
  | closedFile hf =>
    obtain ⟨hd, hopen⟩ := List.mem_filter.mp hd'
    obtain ⟨o, ho⟩ := Option.isSome_iff_exists.mp hopen
    obtain ⟨p, hp, hmeta⟩ := Fat439.closeFile_some ho
    rw [Mount.live_fs, Fat439.metaData_of_some ho, hmeta, ← Fat439.metaData_of_some hp]
    exact hm d' hd
  | closedDir => exact hm d' (List.mem_of_mem_eraseIdx hd')
  | @made i d entry entry' name success fs' hop hd herr hav happ =>
    subst hop
    obtain ⟨hmod, hlt, halone⟩ := ha d hd herr hav
    have hself := hm d (List.mem_of_getElem? hd)
    obtain ⟨o, ho⟩ := hc.isOpen (List.mem_of_getElem? hd)
    have hfails : success ≠ 0 ↔ LeavesNoBlock m.fs d := (append_taken_fails_iff ho hav happ).1
    rw [Fat439.metaData_of_some ho] at hmod hlt hself
    have hoT : (d.taken m.fs).openFiles d.start = some o := by
      rw [Fat439Directory.taken_eq hav]; exact ho
    have hopen := OpenFile.append_openFiles hoT rfl Fat439Directory.newEntry_length hmod hlt happ
    have hlen : (fs'.metaData d.start).length =
        if success = 0 then o.metaData.length + 16 else o.metaData.length := by
      rw [Fat439.metaData_of_some (by rw [hopen]; exact Function.update_self ..)]
    rcases mem_set hd' with rfl | ⟨j, hj, hji⟩
    · dsimp only
      rw [hlen, hself]
      split <;> omega
    · have hd₂ := List.mem_of_getElem? hj
      rcases Nat.decEq d'.start d.start with hne | he
      · obtain ⟨o₂, ho₂⟩ := hc.isOpen hd₂
        have hsame : fs'.openFiles d'.start = m.fs.openFiles d'.start := by
          rw [hopen, Function.update_of_ne hne, Fat439Directory.taken_eq hav]
        dsimp only
        rw [Fat439.metaData_congr ho₂ hsame]
        exact hm d' hd₂
      · -- another object for the same directory
        rcases Decidable.em (success = 0) with h0 | h0
        · exact absurd he (halone (fun hblk => hfails.mpr hblk h0) j d' hj hji)
        · dsimp only
          rw [hm d' hd₂, he, hlen, if_neg h0, Fat439.metaData_of_some ho]
  | @freed i d entry entry' name fs₁ fs₂ hop hd h0 hobj hrem hadd =>
    subst hop
    have ht : m.target (.remove i entry entry' name) = d.lookup m.fs entry name := by
      rw [Mount.target, hd]; rfl
    rw [ht] at h0 hobj hrem hadd
    have halone := (ha d hd).resolve_left fun hs => hs.not_freed h0 hobj hrem
    obtain ⟨newsz, hlen, hsz⟩ := freed_length hrem hadd
    rw [Fat439Directory.lookupEntry_openFile] at hsz
    rcases mem_set hd' with rfl | ⟨j, hj, hji⟩
    · rfl
    · obtain ⟨hblk, hstart⟩ := halone j d' hj hji
      have hd₂ := List.mem_of_getElem? hj
      obtain ⟨o, ho⟩ := hc.isOpen hd₂
      have hself := hm d' hd₂
      dsimp only
      rw [hlen _ o ho, hself]
      split
      next he => have := hblk he; omega
      next hne =>
        split
        next he =>
          obtain ⟨hlast, h16, h32⟩ := hstart he
          rw [he]
          unfold w32 at hsz
          omega
        next => rw [Fat439.metaData_of_some ho]

/-- In every run of operations that are alone, all objects know the number of entries, so that two
objects for one directory cannot be told apart. -/
theorem objects_coherent {files : List HostFile} {ops : List Op} (hm : Mounted n files m)
    (hr : Run (Run.Within Step Alone) m ops m') :
    (∀ d ∈ m'.dirs, d.entries = (m'.fs.metaData d.start).length / 16) ∧
    ∀ d₁ ∈ m'.dirs, ∀ d₂ ∈ m'.dirs, d₁.start = d₂.start →
      (∀ entry name, d₁.lookup m'.fs entry name = d₂.lookup m'.fs entry name) ∧
      (∀ entry, d₁.listFiles m'.fs entry = d₂.listFiles m'.fs entry) ∧
      ∀ entry entry' name d' fs', d₁.mkdir m'.fs entry entry' name = (0, d', fs') →
        d₂.lookup m'.fs entry name = 0 := by
  obtain ⟨img, -, hmount⟩ := hm
  have hinit : Coherent m ∧ AllOpen m := by
    refine ⟨?_, mount_allOpen hmount⟩
    obtain ⟨fs, -, rfl⟩ := mount_eq hmount
    intro d hd
    rw [List.mem_singleton] at hd
    subst hd
    rw [Fat439.metaData_openFile]
  obtain ⟨hc, -⟩ := hr.inv_of (I := fun m => Coherent m ∧ AllOpen m)
    (fun _ _ _ hI ha hs => ⟨hI.1.step hI.2 ha hs, hI.2.effect hs.effect⟩) hinit
  refine ⟨hc, fun d₁ h₁ d₂ h₂ hs => ?_⟩
  have he : d₁.entries = d₂.entries := by rw [hc _ h₁, hc _ h₂, hs]
  obtain rfl : d₁ = d₂ := by
    cases d₁
    cases d₂
    cases hs
    cases he
    rfl
  refine ⟨fun _ _ => rfl, fun _ => rfl, fun entry entry' name d' fs' hmk => ?_⟩
  rcases Fat439Directory.mkdir_cases hmk with ⟨h0, -⟩ | ⟨herr, -⟩
  · exact absurd h0 (by decide)
  · exact (Fat439Directory.mkdirError_none herr).2

theorem objects_coherent_mkdir : ∃ m', Run (Run.Within Step Alone) byteMount
    [.mkdir 0 (fun _ => 0) (fun _ => 0) [0x62]] m' ∧
      ∀ d ∈ m'.dirs, d.entries = (m'.fs.metaData d.start).length / 16 := by
  have hsome : (byteMount.step (.mkdir 0 (fun _ => 0) (fun _ => 0) [0x62])).isSome = true := by
    decide +kernel
  have halone : Alone byteMount (.mkdir 0 (fun _ => 0) (fun _ => 0) [0x62]) := by
    intro d hd _ _
    have hdirs : byteMount.dirs = [⟨7, 1⟩] := by decide
    rw [hdirs] at hd
    obtain rfl : ⟨7, 1⟩ = d := Option.some.inj hd
    refine ⟨by decide, by decide, fun _ j d₂ hj hne => ?_⟩
    rw [hdirs, List.getElem?_singleton, if_neg hne] at hj
    cases hj
  have hrun : Run (Run.Within Step Alone) byteMount _ _ := .single ⟨.of_isSome hsome, halone⟩
  exact ⟨_, hrun, (objects_coherent mounted_byteMount hrun).1⟩

/-- A second object for the root directory, and a directory that is made through it. -/
def mkdirThroughOther : List Op :=
  [.lookupDirectory 0 (fun _ => 0) [0x2e], .mkdir 1 (fun _ => 0) (fun _ => 0) [0x62]]

theorem mkdirThroughOther_isSome : (byteMount.after mkdirThroughOther).isSome = true := by
  decide +kernel

/-- The first object does not know the entry that was made through the second one. -/
theorem object_stale :
    Mounted 8 [byteFile] byteMount ∧ ∃ m', Run Step byteMount mkdirThroughOther m' ∧
    ¬∀ d ∈ m'.dirs, d.entries = (m'.fs.metaData d.start).length / 16 := by
  refine ⟨mounted_byteMount, _, Mount.run_after mkdirThroughOther_isSome, fun h => ?_⟩
  have hmem :
      ⟨7, 1⟩ ∈ ((byteMount.after mkdirThroughOther).get mkdirThroughOther_isSome).dirs := by
    decide +kernel
  have hlen :
      (((byteMount.after mkdirThroughOther).get mkdirThroughOther_isSome).fs.metaData 7).length =
      32 := by decide +kernel
  have := h _ hmem
  dsimp only at this
  rw [hlen] at this
  cases this

end

end K439.Fs
