import K439.Fs.MakeDirectory

/-!
# Making a directory on a full disk

`mkdir` takes a block before it knows that its entry fits. When the entry needs a block of its own
and there was one free block only, `write` fails, and the block is lost (`mkdir_unchanged_iff`). A
nested directory with 31 entries on a disk with one free block gets there (`mkdir_loses_block`).
-/

namespace K439.Fs

variable {fs fs' : Fat439} {d d' : Fat439Directory} {m m' : Mount} {op : Op} {ops : List Op}
  {o : OpenFile}
  {entry entry' : Nat → UInt8} {name buf : List UInt8} {start blk fuel tot L n i k : Nat}
    {code : Int}

/-! ## When an append fails -/

theorem Fat439.remNextAvail_full (h : fs.super.avail = 0) : fs.remNextAvail = (0, fs) := by
  rw [remNextAvail]
  dsimp only
  rw [if_pos h]

theorem Fat439.remNextAvail_taken (h : fs.super.avail ≠ 0) : fs.remNextAvail = (fs.super.avail,
    { fs with super := { fs.super with avail := fs.fat fs.super.avail },
              fat := Function.update fs.fat fs.super.avail 0 }) := by
  rw [remNextAvail]
  dsimp only
  rw [if_neg h]

namespace OpenFile

/-- The loop of `write` fails when it needs a block and there is none. -/
theorem writeLoop_fails_iff (fs : Fat439) (blk tot : Nat) (hf : buf.length ≤ fuel)
    (hb : buf.length ≤ 512) :
    ((writeLoop fuel fs blk buf tot).1 = false ↔ 0 < buf.length ∧ fs.fat blk = 0 ∧
      fs.super.avail = 0) ∧
    ((writeLoop fuel fs blk buf tot).1 = false →
      (writeLoop fuel fs blk buf tot).2.1.super = fs.super) := by
  rcases Nat.eq_zero_or_pos buf.length with h0 | hpos
  · obtain rfl := List.length_eq_zero_iff.mp h0
    rw [writeLoop_nil]
    simp
  obtain ⟨fuel, rfl⟩ : ∃ k, fuel = k + 1 := ⟨fuel - 1, by omega⟩
  -- a round that has a block writes everything
  have hround (x : Nat) (fs₁ : Fat439) : (writeLoop fuel
      { fs₁ with dev := (BlockDevice.write fs₁.dev (w32 (x * 512))
        (buf.take (min buf.length 512))).2 }
      x (buf.drop (BlockDevice.write fs₁.dev (w32 (x * 512)) (buf.take (min buf.length 512))).1)
      (tot + (BlockDevice.write fs₁.dev (w32 (x * 512)) (buf.take (min buf.length 512))).1)).1 =
        true := by
    have hz : w32 (x * 512) % 512 = 0 := by unfold w32; omega
    rw [Nat.min_eq_left hb, List.take_of_length_le (Nat.le_refl _),
      BlockDevice.write_eq_of_le (by omega)]
    dsimp only
    rw [List.drop_of_length_le (Nat.le_refl _), writeLoop_nil]
  rw [writeLoop, if_pos hpos]
  rcases Nat.decEq (fs.fat blk) 0 with hne | heq
  · simp only [if_neg hne]
    rw [hround]
    exact ⟨iff_of_false (by simp) fun h => hne h.2.1, fun h => by cases h⟩
  · simp only [heq, if_true]
    rcases Nat.decEq fs.super.avail 0 with hav | hav
    · rw [Fat439.remNextAvail_taken hav]
      dsimp only
      rw [if_neg hav, hround]
      exact ⟨iff_of_false (by simp) fun h => hav h.2.2, fun h => by cases h⟩
    · rw [Fat439.remNextAvail_full hav]
      dsimp only
      rw [if_pos rfl]
      exact ⟨iff_of_true rfl ⟨hpos, trivial, hav⟩, fun _ => rfl⟩

/-- The sixteen bytes that follow `L` bytes of contents do not go into the block in one piece. -/
def Splits (L : Nat) : Prop := w32 (L + 16) = 512 ∨ 496 < w32 (L + 16) % 512

instance : Decidable (Splits L) := inferInstanceAs (Decidable (_ ∨ _))

/-- The first segment of an entry. -/
theorem write_entry (dev : Dev) (L B : Nat) (hb : buf.length = 16) :
    (BlockDevice.write dev (w32 (B * 512 + w32 (L + 16) % 512))
        (buf.take (min 16 (w32 (0x100000000 + 512 - w32 (L + 16)))))).1 ≤ 16 ∧
      ((BlockDevice.write dev (w32 (B * 512 + w32 (L + 16) % 512))
        (buf.take (min 16 (w32 (0x100000000 + 512 - w32 (L + 16)))))).1 < 16 ↔ Splits L) := by
  have ha : w32 (L + 16) < 0x100000000 := w32_lt
  have hmod : w32 (B * 512 + w32 (L + 16) % 512) % 512 = w32 (L + 16) % 512 := by
    unfold w32; omega
  rw [BlockDevice.write_eq]
  dsimp only
  rw [hmod, List.length_take, hb, Splits]
  generalize w32 (L + 16) = a at *
  have hlen : w32 (0x100000000 + 512 - a) = if a ≤ 512 then 512 - a
      else 0x100000000 + 512 - a := by
    unfold w32
    split <;> omega
  rw [hlen]
  split <;> omega

/-- The append of an entry fails when it does not go into the block, which is the last one of its
chain, and there is no free block. -/
theorem append_fails_iff (fs : Fat439) (start : Nat) (hb : buf.length = 16) :
    ((append fs start buf).1 ≠ 0 ↔ Splits (fs.metaData start).length ∧
      fs.fat (fs.fat^[w32 ((fs.metaData start).length + 16) / 512] start) = 0 ∧
      fs.super.avail = 0) ∧
    ((append fs start buf).1 ≠ 0 → (append fs start buf).2.super = fs.super) := by
  rw [append, write, hb]
  dsimp only
  obtain ⟨hle, hsplit⟩ := write_entry fs.dev (fs.metaData start).length
    (fs.fat^[w32 ((fs.metaData start).length + 16) / 512] start) hb
  generalize BlockDevice.write fs.dev _ _ = r at hle hsplit ⊢
  have hdrop : (buf.drop r.1).length = 16 - r.1 := by rw [List.length_drop, hb]
  obtain ⟨hloop, hsuper⟩ := writeLoop_fails_iff { fs with dev := r.2 }
    (fs.fat^[w32 ((fs.metaData start).length + 16) / 512] start) r.1
    (show (buf.drop r.1).length ≤ 16 by omega) (by omega)
  generalize writeLoop 16 _ _ _ _ = p at hloop hsuper ⊢
  rw [← hsplit]
  dsimp only at hloop hsuper
  cases hp : p.1 with
  | true =>
    rw [hp, hdrop] at hloop
    rw [if_pos rfl]
    refine ⟨iff_of_false (by simp) fun h => ?_, fun h => absurd rfl h⟩
    exact absurd (hloop.mpr ⟨by omega, h.2⟩) (by simp)
  | false =>
    rw [hp, hdrop] at hloop
    rw [if_neg (by simp)]
    obtain ⟨hpos, h⟩ := hloop.mp rfl
    refine ⟨iff_of_true (by simp [ERR_NO_SPACE]) ⟨by omega, h⟩, fun _ => ?_⟩
    exact hsuper hp

end OpenFile

/-! ## When a failing `mkdir` changes something -/

/-- The chain once the first free block is taken. -/
def Fat439.fatTaken (fs : Fat439) : Nat → Nat := Function.update fs.fat fs.super.avail 0

/-- The new entry needs a block of its own, and the block that `mkdir` takes first is the last free
one. -/
def LeavesNoBlock (fs : Fat439) (d : Fat439Directory) : Prop :=
  OpenFile.Splits (fs.metaData d.start).length ∧
    fs.fatTaken (fs.fatTaken^[w32 ((fs.metaData d.start).length + 16) / 512] d.start) = 0 ∧
    fs.fat fs.super.avail = 0

/-- The append of `mkdir` fails when there is no block left. -/
theorem append_taken_fails_iff (ho : fs.openFiles d.start = some o) (hav : fs.super.avail ≠ 0)
    (h : OpenFile.append (d.taken fs) d.start (Fat439Directory.newEntry entry name n) =
      (code, fs')) :
    (code ≠ 0 ↔ LeavesNoBlock fs d) ∧
    (code ≠ 0 → fs'.super.avail = fs.fat fs.super.avail) := by
  have hoT : (d.taken fs).openFiles d.start = some o := by
    rw [Fat439Directory.taken_eq hav]
    exact ho
  have hmeta : (d.taken fs).metaData d.start = fs.metaData d.start :=
    (Fat439.metaData_of_some hoT).trans (Fat439.metaData_of_some ho).symm
  obtain ⟨hfails, hsuper⟩ :=
    OpenFile.append_fails_iff (d.taken fs) d.start
      (Fat439Directory.newEntry_length : (Fat439Directory.newEntry entry name n).length = 16)
  rw [h] at hfails hsuper
  rw [hmeta, Fat439Directory.taken_eq hav] at hfails
  rw [Fat439Directory.taken_eq hav] at hsuper
  exact ⟨hfails, fun h0 => congrArg Super.avail (hsuper h0)⟩

/-- In every state that is reached, a `mkdir` that returns an error leaves everything as it was if
and only if it does not take the last free block for an entry that needs one more. -/
theorem mkdir_unchanged_iff {files : List HostFile} (hm : Mounted n files m)
    (hr : Run Step m ops m') (hd : d ∈ m'.dirs)
    (h : d.mkdir m'.fs entry entry' name = (code, d', fs')) :
    (code ≠ 0 → d' = d ∧ fs' = m'.fs) ↔
      ¬(d.mkdirError m'.fs entry name = none ∧ m'.fs.super.avail ≠ 0 ∧
        LeavesNoBlock m'.fs d) := by
  have hc : AllOpen m' := by
    obtain ⟨img, -, hmount⟩ := hm
    exact hr.inv (fun _ _ _ hc hs => hc.effect hs.effect) (mount_allOpen hmount)
  obtain ⟨o, ho⟩ := hc.isOpen hd
  constructor
  · rintro hun ⟨herr, hav, hblk⟩
    obtain ⟨success, happ, hcode, -⟩ := Fat439Directory.mkdir_takes herr hav h
    obtain ⟨hfails, havail⟩ := append_taken_fails_iff ho hav happ
    have h0 : success ≠ 0 := hfails.mpr hblk
    rw [if_neg h0] at hcode
    obtain ⟨-, hfs⟩ := hun (by rw [hcode]; decide)
    -- the block is taken
    refine hav ?_
    rw [← hblk.2.2, ← havail h0, hfs]
  · intro hnot hcode
    rcases Fat439Directory.mkdir_cases h with ⟨-, hd', hfs⟩ |
      ⟨herr, hav, success, happ, hc', -⟩
    · exact ⟨hd', hfs⟩
    · have h0 : success ≠ 0 := fun h0 => hcode (by rw [hc', if_pos h0])
      exact absurd ⟨herr, hav, (append_taken_fails_iff ho hav happ).1.mp h0⟩ hnot

theorem mkdir_unchanged_byteMount :
    ((Fat439Directory.mkdir byteMount.fs ⟨7, 1⟩ (fun _ => 0) (fun _ => 0) [0x61]).1 ≠ 0 →
      (Fat439Directory.mkdir byteMount.fs ⟨7, 1⟩ (fun _ => 0) (fun _ => 0) [0x61]).2.1 =
      ⟨7, 1⟩ ∧
      (Fat439Directory.mkdir byteMount.fs ⟨7, 1⟩ (fun _ => 0) (fun _ => 0) [0x61]).2.2 =
      byteMount.fs) ↔
    ¬(Fat439Directory.mkdirError byteMount.fs ⟨7, 1⟩ (fun _ => 0) [0x61] = none ∧
      byteMount.fs.super.avail ≠ 0 ∧ LeavesNoBlock byteMount.fs ⟨7, 1⟩) :=
  mkdir_unchanged_iff mounted_byteMount .nil (by decide)
    (rfl : Fat439Directory.mkdir byteMount.fs ⟨7, 1⟩ (fun _ => 0) (fun _ => 0) [0x61] = _)

/-! ## Filling a directory -/

/-- What is open after a call was open before it, or is opened by it. -/
theorem Effect.opened_cases {b : Nat} (h : Effect m op m') (hc : AllOpen m)
    (ho : m'.fs.openFiles b = some o) :
    (∃ o', m.fs.openFiles b = some o') ∨ m.target op ≠ 0 ∧ b = m.target op := by
  have hopened : ∀ x, x ≠ 0 → (m.fs.openFile x).openFiles b = some o →
      (∃ o', m.fs.openFiles b = some o') ∨ x ≠ 0 ∧ b = x := by
    intro x hx ho
    rcases Nat.decEq b x with hne | rfl
    · exact .inl ⟨o, by rwa [Fat439.openFile_of_ne _ hne] at ho⟩
    · exact .inr ⟨hx, rfl⟩
  cases h with
  | same => exact .inl ⟨o, ho⟩
  | opened h0 => exact hopened _ h0 ho
  | openedFile h0 => exact hopened _ h0 ho
  | openedDir hop h0 => exact hopened _ h0 ho
  | @made i d entry entry' name success fs' hop hd herr hav happ =>
    obtain ⟨fs₁, newsz, h₁, h₂⟩ := OpenFile.append_resize
      (by rw [Fat439Directory.newEntry_length]; omega) happ
    refine .inl ?_
    rcases Nat.decEq b d.start with hne | rfl
    · rw [h₂, OpenFile.resize_openFiles_of_ne hne, h₁] at ho
      exact ⟨o, (congrFun Fat439.remNextAvail_openFiles b).symm.trans ho⟩
    · exact hc.isOpen (List.mem_of_getElem? hd)
  | @freed i d entry entry' name fs₁ fs₂ hop hd h0 hobj hrem hadd =>
    obtain ⟨fs₀, newsz, h₁, h₂, -⟩ := OpenFile.remFromOffset_resize hrem
    obtain ⟨last, -, h₃⟩ := Fat439.addAvailBlk_eq hadd
    rcases Nat.decEq b (m.target op) with hne | heq
    · rcases Nat.decEq b d.start with hne' | rfl
      · have hsync : fs₂.sync.openFiles = (OpenFile.resize fs₁ (m.target op) 0).openFiles := by
          rw [h₃]
          rfl
        dsimp only at ho
        rw [hsync, OpenFile.resize_openFiles_of_ne hne, h₂,
          OpenFile.resize_openFiles_of_ne hne', h₁, Fat439.openFile_of_ne _ hne] at ho
        exact .inl ⟨o, ho⟩
      · exact .inl (hc.isOpen (List.mem_of_getElem? hd))
    · exact .inr ⟨h0, heq⟩
  | closedFile =>
    obtain ⟨p, hp, -⟩ := Fat439.closeFile_some ho
    exact .inl ⟨p, hp⟩
  | closedDir => exact .inl ⟨o, ho⟩

/-- In a directory with room in its first block `mkdir` makes what it is to make. -/
theorem Kept.mkdir_room (K : Kept m) (hd : d ∈ m.dirs)
    (herr : d.mkdirError m.fs entry name = none) (hav : m.fs.super.avail ≠ 0)
    (hent : d.entries * 16 = (m.fs.metaData d.start).length)
    (hroom : (m.fs.metaData d.start).length + 32 ≤ 512) (hz : 0 ∉ name)
    (hdots : name ≠ [0x2e, 0x2e]) :
    ∃ fs', d.mkdir m.fs entry entry' name = (0, { d with entries := d.entries + 1 }, fs') ∧
      Makes m.fs d name { d with entries := d.entries + 1 } fs' ∧
      fs'.super = { m.fs.super with avail := m.fs.fat m.fs.super.avail } ∧
      fs'.fat = m.fs.fatTaken := by
  obtain ⟨o, ho⟩ := K.allOpen.isOpen hd
  obtain ⟨hlen, h0⟩ := Fat439Directory.mkdirError_none herr
  rcases hmk : d.mkdir m.fs entry entry' name with ⟨code, d', fs'⟩
  obtain ⟨success, happ, hcode, hd'⟩ := Fat439Directory.mkdir_takes herr hav hmk
  have W := K.makesWhen hd hav hent hroom hdots
  have hL : o.metaData.length = d.entries * 16 := by
    rw [hent, Fat439.metaData_of_some ho]
  obtain ⟨rfl, A⟩ :=
    appended_of_room ho hav W.avail.1 W.start.2 W.avail.2 Fat439Directory.newEntry_length hL
    (hent ▸ hroom) happ
  rw [if_pos rfl] at hcode hd'
  rw [hcode, hd']
  exact ⟨fs', rfl, A.makes W hav hlen hz h0, A.super, A.fat⟩

/-- The names of the directories that fill a directory. -/
def fillName (j : Nat) : List UInt8 := [UInt8.ofNat (0x41 + j)]

def fillOp (j : Nat) : Op := .mkdir 1 (fun _ => 0) (fun _ => 0) (fillName j)

theorem fillName_inj (hi : i < 32) (hk : k < 32) (h : fillName i = fillName k) : i = k := by
  have h := congrArg UInt8.toNat (List.singleton_inj.mp h)
  simp only [UInt8.toNat_ofNat'] at h
  omega

theorem not_mem_fillName {c : UInt8} (hc : c.toNat < 0x41) (hk : k < 32) : c ∉ fillName k := by
  intro h
  rw [fillName, List.mem_singleton] at h
  rw [h] at hc
  simp only [UInt8.toNat_ofNat'] at hc
  omega

theorem fillName_ne_dots (hk : k < 32) : fillName k ≠ [0x2e] ∧ fillName k ≠ [0x2e, 0x2e] := by
  have h : (0x2e : UInt8) ∉ fillName k := not_mem_fillName (by decide) hk
  exact ⟨fun he => h (he ▸ List.mem_singleton_self _), fun he => h (he ▸ by simp)⟩

/-- The directory `s` has `k` entries of 31, and there are as many blocks for the others and one
more. -/
structure Filling (r : Fat439Directory) (s k : Nat) (m : Mount) : Prop where
  kept : Kept m
  dirs : m.dirs = [r, ⟨s, k⟩]
  nested : s ≠ m.fs.super.root
  length : (m.fs.metaData s).length = k * 16
  opened : ∀ b o, m.fs.openFiles b = some o → b = r.start ∨ b = s
  unused : ∀ j e, k ≤ j → j < 32 → Fat439Directory.lookup m.fs ⟨s, k⟩ e (fillName j) = 0
  free : ∃ l, Linked m.fs.fat 0 m.fs.super.avail l ∧ l.length + k = 32

namespace Filling

variable {r : Fat439Directory} {s : Nat} (F : Filling r s k m)
include F

theorem mem : ⟨s, k⟩ ∈ m.dirs := by
  rw [F.dirs]
  simp

theorem avail_ne (hk : k < 32) : m.fs.super.avail ≠ 0 := by
  obtain ⟨l, hl, hlen⟩ := F.free
  intro h0
  rw [hl.eq_nil_iff.mp h0, List.length_nil] at hlen
  omega

/-- The next name passes the tests. -/
theorem mkdirError_eq (hk : k < 32) :
    Fat439Directory.mkdirError m.fs ⟨s, k⟩ entry (fillName k) = none := by
  have R := F.kept.readable F.mem
  have htype : (m.fs.metaData s).type = TYPE_DIR :=
    (congrArg MetaData.type R.metaData).trans (F.kept.tree.dir _ R.dir).1
  rw [Fat439Directory.mkdirError, if_neg (not_not.mpr htype), if_neg (by simp [fillName]),
    if_neg (not_mem_fillName (by decide) hk),
      if_neg (not_not.mpr (F.unused k entry (Nat.le_refl k) hk)),
    if_neg fun h => F.nested h.1]

theorem next (hk : k < 31) : ∃ m', Step m (fillOp k) m' ∧ Filling r s (k + 1) m' := by
  have K := F.kept
  have T := K.tree
  have R := K.readable F.mem
  have hav := F.avail_ne (by omega)
  have herr : Fat439Directory.mkdirError m.fs ⟨s, k⟩ (fun _ => 0) (fillName k) = none :=
    F.mkdirError_eq (by omega)
  have hget : m.dirs[1]? = some ⟨s, k⟩ := by
    rw [F.dirs]
    rfl
  have hroom : (m.fs.metaData s).length + 32 ≤ 512 := by
    have := F.length
    omega
  obtain ⟨fs', hmk, hM, hsuper, hfat⟩ := K.mkdir_room F.mem herr hav F.length.symm hroom
    (not_mem_fillName (by decide) (by omega)) (fillName_ne_dots (by omega)).2
  have hstep : Step m (fillOp k) { m with fs := fs', dirs := m.dirs.set 1 ⟨s, k + 1⟩ } :=
    ⟨.ret 0, by rw [fillOp, Mount.step, hget, Option.bind_eq_bind, Option.bind_some, hmk]⟩
  -- the block that is taken is not open
  have hclosed : m.fs.openFiles m.fs.super.avail = none := by
    cases ho : m.fs.openFiles m.fs.super.avail with
    | none => rfl
    | some o =>
      have hr : r ∈ m.dirs := by
        rw [F.dirs]
        exact List.mem_cons_self
      rcases F.opened _ o ho with h | h
      · exact absurd h.symm (T.dir_ne_avail (K.readable hr).dir hav)
      · exact absurd h.symm (T.dir_ne_avail R.dir hav)
  have hO : Orderly m (fillOp k) := by
    refine ⟨fun d hd _ _ => ?_, fun h => h.elim, fun d hd _ _ o ho => ?_⟩
    · rw [hget] at hd
      obtain rfl := Option.some.inj hd
      exact ⟨R.dir, R.metaData, hroom⟩
    · rw [hclosed] at ho
      cases ho
  refine ⟨_, hstep, K.step hO hstep, ?_, ?_, ?_, fun b o ho => ?_, fun j e hj hlt => ?_, ?_⟩
  · dsimp only
    rw [F.dirs]
    rfl
  · dsimp only
    rw [hsuper]
    exact F.nested
  · dsimp only
    rw [hM.length, F.length]
    omega
  · obtain ⟨o', ho'⟩ := (hstep.effect.opened_cases K.allOpen ho).resolve_right fun h => h.1 rfl
    exact F.opened b o' ho'
  · have hne : fillName j ≠ fillName k := fun h => by
      have := fillName_inj hlt (by omega) h
      omega
    rw [hM.others e _ (not_mem_fillName (by decide) hlt) hne]
    exact F.unused j e (by omega) hlt
  · obtain ⟨l, hl, hlen⟩ := F.free
    obtain ⟨l', rfl⟩ := hl.head_mem hav
    refine ⟨l', ?_, by rw [List.length_cons] at hlen; omega⟩
    dsimp only
    rw [hsuper, hfat]
    exact hl.pop fun z hz => Function.update_of_ne hz ..

/-- The directory is filled. -/
theorem run (hk : k ≤ 31) : ∃ ops m', Run Step m ops m' ∧ Filling r s 31 m' := by
  induction hn : 31 - k generalizing m k with
  | zero =>
    obtain rfl : k = 31 := by omega
    exact ⟨[], m, .nil, F⟩
  | succ n ih =>
    obtain ⟨m₁, hstep, F₁⟩ := F.next (by omega)
    obtain ⟨ops, m', hr, F'⟩ := ih F₁ (by omega) (by omega)
    exact ⟨fillOp k :: ops, m', .cons hstep hr, F'⟩

end Filling

/-- In a full directory with one free block `mkdir` takes the block and leaves no other one. -/
theorem Filling.leavesNoBlock {r : Fat439Directory} {s : Nat} (F : Filling r s 31 m) :
    LeavesNoBlock m.fs ⟨s, 31⟩ := by
  have T := F.kept.tree
  have R := F.kept.readable F.mem
  have hav := F.avail_ne (by omega)
  obtain ⟨l, hl, hlen⟩ := F.free
  obtain ⟨l', rfl⟩ := hl.head_mem hav
  rw [List.length_cons] at hlen
  obtain rfl := List.length_eq_zero_iff.mp (show l'.length = 0 by omega)
  have hs : m.fs.fatTaken s = 0 := by
    rw [Fat439.fatTaken, Function.update_of_ne (T.dir_ne_avail R.dir hav)]
    exact (T.dir _ R.dir).2.2.2
  have h0 : m.fs.fatTaken 0 = 0 := by
    rw [Fat439.fatTaken, Function.update_of_ne (Ne.symm hav)]
    exact T.zero
  refine ⟨?_, ?_, hl.2.2⟩
  · rw [F.length]
    decide
  · rw [F.length, show w32 (31 * 16 + 16) / 512 = 1 from rfl, Function.iterate_one, hs]
    exact h0

/-- The state after a call. -/
def Mount.next (m : Mount) (op : Op) : Mount := ((m.step op).map (·.2)).getD m

theorem Mount.step_next (h : (m.step op).isSome = true) : Step m op (m.next op) := by
  obtain ⟨⟨r, m'⟩, hs⟩ := Option.isSome_iff_exists.mp h
  refine ⟨r, ?_⟩
  rw [next, hs]
  rfl

theorem fullImage_isSome : (mkfs 37 [byteFile]).isSome = true := by decide

/-- An image of 37 blocks with one file: the root directory is block 36, the file block 35. -/
def fullImage : Image := (mkfs 37 [byteFile]).get fullImage_isSome

theorem mkfs_fullImage : mkfs 37 [byteFile] = some fullImage := (Option.some_get _).symm

/-- The mount of `fullImage`. -/
def fullMount : Mount :=
  { fs := fullImage.toFs.openFile fullImage.root, dirs := [⟨fullImage.root, 1⟩], files := [] }

theorem mounted_fullMount : Mounted 37 [byteFile] fullMount := by
  obtain ⟨cs, free, B, hn⟩ := mkfs_built (by decide) (by decide) (by decide) mkfs_fullImage
  exact ⟨fullImage, mkfs_fullImage, B.mount_toDev (by rw [hn]; decide)⟩

def makeD : Op := .mkdir 0 (fun _ => 0) (fun _ => 0) [0x64]

def openD : Op := .lookupDirectory 0 (fun _ => 0) [0x64]

/-- The directory "d" is made. -/
def madeD : Mount := fullMount.next makeD

/-- There is an object for the directory "d". -/
def openedD : Mount := madeD.next openD

/-- What the two calls compute. -/
theorem opensD : (fullMount.step makeD).isSome = true ∧ (madeD.step openD).isSome = true ∧
    fullMount.fs.openFiles fullMount.fs.super.avail = none ∧ madeD.target openD = 34 ∧
    (madeD.fs.metaData 34).type = TYPE_DIR ∧ openedD.dirs = [⟨36, 2⟩, ⟨34, 0⟩] ∧
    34 ≠ openedD.fs.super.root ∧ (openedD.fs.metaData 34).length = 0 ∧
    Linked openedD.fs.fat 0 openedD.fs.super.avail ((List.range 32).map (33 - ·)) := by
  decide +kernel

theorem kept_fullMount : Kept fullMount :=
  mounted_fullMount.kept (by decide) (by decide) (by decide)

theorem step_madeD : Step fullMount makeD madeD := Mount.step_next opensD.1

theorem step_openedD : Step madeD openD openedD := Mount.step_next opensD.2.1

theorem fullImage_root : fullImage.root = 36 := by decide

theorem kept_madeD : Kept madeD := by
  have hd : fullMount.dirs[0]? = some ⟨36, 1⟩ := by rw [fullMount, fullImage_root]; rfl
  have R := kept_fullMount.readable (List.mem_of_getElem? hd)
  have hO : Orderly fullMount makeD := by
    refine ⟨fun d h _ _ => ?_, fun h => h.elim, fun d h _ _ o ho => ?_⟩
    · rw [hd] at h
      obtain rfl := Option.some.inj h
      exact ⟨R.dir, R.metaData, by decide⟩
    · rw [opensD.2.2.1] at ho
      cases ho
  exact kept_fullMount.step hO step_madeD

theorem kept_openedD : Kept openedD := by
  have hO : Orderly madeD openD := by
    obtain ⟨-, -, -, htarget, htype, -⟩ := opensD
    exact ⟨trivial, fun _ => .inr (by rw [htarget, htype]), trivial⟩
  exact kept_madeD.step hO step_openedD

theorem openedD_openFiles {b : Nat} (ho : openedD.fs.openFiles b = some o) : b = 36 ∨ b = 34 := by
  rcases step_openedD.effect.opened_cases kept_madeD.allOpen ho with ⟨o₁, h₁⟩ | ⟨-, h⟩
  · rcases step_madeD.effect.opened_cases kept_fullMount.allOpen h₁ with ⟨o₂, h₂⟩ |
      ⟨h, -⟩
    · rcases Nat.decEq b fullImage.root with hne | rfl
      · rw [fullMount, Fat439.openFile_of_ne _ hne] at h₂
        cases h₂
      · exact .inl fullImage_root
    · exact absurd rfl h
  · exact .inr (h.trans opensD.2.2.2.1)

theorem filling_openedD : Filling ⟨36, 2⟩ 34 0 openedD := by
  obtain ⟨-, -, -, -, -, hdirs, hroot, hlen, hfree⟩ := opensD
  refine ⟨kept_openedD, hdirs, hroot, hlen, fun _ _ => openedD_openFiles, fun j e _ hj => ?_,
    _, hfree, by rw [List.length_map, List.length_range]⟩
  rw [Fat439Directory.lookup, if_neg (fillName_ne_dots hj).1, if_neg (fillName_ne_dots hj).2]
  rfl

/-- The last free block is lost when the new entry needs a block of its own. -/
theorem mkdir_loses_block :
    ¬∀ (n : Nat) (files : List HostFile) (m : Mount) (ops : List Op) (m' : Mount)
    (d : Fat439Directory) (entry entry' : Nat → UInt8) (name : List UInt8), Mounted n files m →
    Run Step m ops m' → d ∈ m'.dirs →
    (d.mkdir m'.fs entry entry' name).1 ≠ 0 →
      (d.mkdir m'.fs entry entry' name).2 = (d, m'.fs) := by
  intro h
  obtain ⟨ops, m', hr, F⟩ := filling_openedD.run (by omega)
  have hr : Run Step fullMount (makeD :: openD :: ops) m' :=
    .cons step_madeD (.cons step_openedD hr)
  have hun := h 37 _ _ _ _ _ (fun _ => 0) (fun _ => 0) (fillName 31) mounted_fullMount hr F.mem
  rcases hmk : Fat439Directory.mkdir m'.fs ⟨34, 31⟩ (fun _ => 0) (fun _ => 0) (fillName 31)
    with ⟨code, d', fs'⟩
  rw [hmk] at hun
  exact (mkdir_unchanged_iff mounted_fullMount hr F.mem hmk).mp
    (fun hcode => Prod.ext_iff.mp (hun hcode))
    ⟨F.mkdirError_eq (by omega), F.avail_ne (by omega), F.leavesNoBlock⟩

end K439.Fs
