import K439.Fs.Remove
import K439.Lib.Ledger

/-!
# The directory tree

Every block of the data area is free or belongs to the chain of one entry of the tree of
directories. An entry that `mkdir` puts into the first block of a directory keeps it so, and so does
a removal that drops the entry it finds. The block of an entry that does not fit there is linked to
nothing, and any other removal frees blocks that an entry still names or drops entries that it does
not free.
-/

namespace K439.Fs

/-- The block that the entry `i` of the directory `s` names. -/
def entryStart (fs : Fat439) (s i : Nat) : Nat :=
  word fs.dev (Fat439Directory.entryAddr fs s i + 12)

/-- The directories of the device. -/
inductive Dir (fs : Fat439) : Nat → Prop
  | root : Dir fs fs.super.root
  | entry {s i : Nat} : Dir fs s → i < (header fs.dev s).length / 16 →
      (header fs.dev (entryStart fs s i)).type = TYPE_DIR → Dir fs (entryStart fs s i)

/-- Who can have a block. -/
inductive Slot
  | free
  | root
  | entry (s i : Nat)

theorem Slot.entry_ne_free {s i : Nat} : Slot.entry s i ≠ .free := Slot.noConfusion

def Owns (fs : Fat439) : Slot → Nat → Prop
  | .free, x => OnChain fs fs.super.avail x
  | .root, x => OnChain fs fs.super.root x
  | .entry s i, x =>
    Dir fs s ∧ i < (header fs.dev s).length / 16 ∧ OnChain fs (entryStart fs s i) x

/-- A tree of directories of one block each. -/
structure Tree (fs : Fat439) : Prop where
  size : fs.super.nBlocks ≤ 0x800000
  owned : Exact (Owns fs) (InArea fs.super.nBlocks)
  avail : ∃ l, Linked fs.fat 0 fs.super.avail l
  root : fs.super.root ≠ 0
  zero : fs.fat 0 = 0
  dir : ∀ s, Dir fs s → (header fs.dev s).type = TYPE_DIR ∧
    (header fs.dev s).length % 16 = 0 ∧ (header fs.dev s).length ≤ 496 ∧ fs.fat s = 0
  chain : ∀ s i, Dir fs s → i < (header fs.dev s).length / 16 →
    entryStart fs s i ≠ 0 ∧ ∃ l, Linked fs.fat 0 (entryStart fs s i) l

/-- The directories have one block each, and are not the first free block. -/
structure Flat (fs : Fat439) : Prop where
  lt : ∀ s, Dir fs s → s < 0x800000
  ne_avail : ∀ s, Dir fs s → fs.super.avail ≠ 0 → s ≠ fs.super.avail
  length : ∀ s, Dir fs s → (header fs.dev s).length % 16 = 0 ∧
    (header fs.dev s).length ≤ 496

/-- The block `b` was taken and holds the header of an empty directory, and its entry lies behind
the others in the first block of `s`. -/
structure Appended (fs : Fat439) (s b L : Nat) (entry : List UInt8) (fs' : Fat439) : Prop where
  super : fs'.super = { fs.super with avail := fs.fat b }
  fat : fs'.fat = Function.update fs.fat b 0
  metaData : fs'.metaData s = { fs.metaData s with length := L + 16 }
  new : header fs'.dev b = ⟨TYPE_DIR, 0, s, b⟩
  entry : slice fs'.dev (s * 512 + (L + 16)) 16 = entry
  bytes : ∀ x i, i < 512 → (x = b → 16 ≤ i) →
    (x = s → 16 ≤ i ∧ (i < L + 16 ∨ L + 32 ≤ i)) →
    fs'.dev (x * 512 + i) = fs.dev (x * 512 + i)

/-- The block `b` became a directory without an entry, and its entry the last one of `s`. -/
structure Made (fs : Fat439) (s b L : Nat) (entry : List UInt8) (fs' : Fat439) : Prop
    extends Appended fs s b L entry fs' where
  self : header fs'.dev s = { header fs.dev s with length := L + 16 }

section

variable {fs fs' : Fat439} {d : Fat439Directory} {o : OpenFile} {s t b i j x y L : Nat}
  {entry buf : List UInt8} {code : Int}

/-- The start of an entry is its last word. -/
theorem word_of_entry {m : Nat → UInt8} {a : Nat} (h : slice m a 16 = entry) :
    word m (a + 12) = decodeLE (entry.drop 12) := by
  have hlen : (entry.drop 12).length = 4 := by rw [← h, List.length_drop, slice_length]
  rw [word, ← slice_slice (n := 16) (by omega), h, List.take_of_length_le (Nat.le_of_eq hlen)]

theorem OnChain.head {l : List Nat} (h : Linked fs.fat 0 s l) (hs : s ≠ 0) : OnChain fs s s := by
  obtain ⟨l', rfl⟩ := h.head_mem hs
  exact ⟨_, h, List.mem_cons_self⟩

/-- What `mkdir` stores when its entry goes into the first block. -/
theorem append_room (ho : fs.openFiles d.start = some o) (hav : fs.super.avail ≠ 0)
    (hs : d.start < 0x800000) (hb : fs.super.avail < 0x800000) (hbuf : buf.length = 16)
    (hL : o.metaData.length = L) (hroom : L + 32 ≤ 512)
    (h : OpenFile.append (d.taken fs) d.start buf = (code, fs')) : code = 0 ∧
      fs' = { fs with
        super := { fs.super with avail := fs.fat fs.super.avail }
        fat := Function.update fs.fat fs.super.avail 0
        openFiles := Function.update fs.openFiles d.start
          (some { o with metaData := { o.metaData with length := L + 16 } })
        dev := put (put (put fs.dev (fs.super.avail * 512)
            (MetaData.bytes ⟨TYPE_DIR, 0, d.start, fs.super.avail⟩))
              (d.start * 512 + (L + 16)) buf)
          (d.start * 512) (MetaData.bytes { o.metaData with length := L + 16 }) } := by
  have hoT : (d.taken fs).openFiles d.start = some o := by
    rw [Fat439Directory.taken_eq hav]; exact ho
  rw [OpenFile.append_entry hoT hL hbuf (by omega) (by omega), Fat439Directory.taken_eq hav,
    Nat.div_eq_of_lt (by omega), Nat.mod_eq_of_lt (by omega), Function.iterate_zero, id_eq,
    w32_of_lt (addr_lt hs (by omega)), w32_of_lt (by omega)] at h
  obtain ⟨hcode, hfs⟩ := Prod.ext_iff.mp h
  refine ⟨hcode.symm, hfs.symm.trans ?_⟩
  dsimp only
  rw [w32_of_lt (by omega)]

/-- The append of `mkdir` to a directory with room in its first block. -/
theorem appended_of_room (ho : fs.openFiles d.start = some o) (hav : fs.super.avail ≠ 0)
    (hne : d.start ≠ fs.super.avail) (hs : d.start < 0x800000) (hb : fs.super.avail < 0x800000)
    (hbuf : buf.length = 16) (hL : o.metaData.length = L) (hroom : L + 32 ≤ 512)
    (h : OpenFile.append (d.taken fs) d.start buf = (code, fs')) :
    code = 0 ∧ Appended fs d.start fs.super.avail L buf fs' := by
  obtain ⟨rfl, rfl⟩ := append_room ho hav hs hb hbuf hL hroom h
  refine ⟨rfl, rfl, rfl, ?_, ?_, ?_, fun x i hi hx hxs => ?_⟩
  · rw [Fat439.metaData_of_some (Function.update_self ..), Fat439.metaData_of_some ho]
  · have hself : header (put fs.dev (fs.super.avail * 512)
        (MetaData.bytes ⟨TYPE_DIR, 0, d.start, fs.super.avail⟩)) fs.super.avail =
        ⟨TYPE_DIR, 0, d.start, fs.super.avail⟩ := by
      refine header_put fun w hw => ?_
      simp only [MetaData.words, TYPE_DIR, List.mem_cons, List.not_mem_nil, or_false] at hw
      omega
    refine Eq.trans (header_congr fun i hi => ?_) hself
    dsimp only
    rw [put_block_start_ne (Ne.symm hne) (by omega) (by simp),
      put_block_ne (Ne.symm hne) (by omega) (by omega)]
  · dsimp only
    rw [← hbuf, slice_put_of_disjoint (.inr (by simp; omega)), slice_put]
  · dsimp only
    have hfree : ∀ m : Dev, put m (fs.super.avail * 512)
        (MetaData.bytes ⟨TYPE_DIR, 0, d.start, fs.super.avail⟩) (x * 512 + i) =
          m (x * 512 + i) := fun m => by
      rcases Nat.decEq x fs.super.avail with hxb | rfl
      · exact put_block_start_ne hxb hi (by simp)
      · have := hx rfl
        exact put_of_le (by rw [MetaData.bytes_length]; omega)
    rcases Nat.decEq x d.start with hne' | rfl
    · rw [put_block_start_ne hne' hi (by simp), put_block_ne hne' hi (by omega), hfree]
    · obtain ⟨h16, hout⟩ := hxs rfl
      rw [put_of_le (by rw [MetaData.bytes_length]; omega)]
      rcases hout with hlt | hge
      · rw [put_of_lt (by omega), hfree]
      · rw [put_of_le (by omega), hfree]

/-- The same in a directory whose header is the one on the device. -/
theorem made_of_room (ho : fs.openFiles d.start = some o)
    (hdisk : o.metaData = header fs.dev d.start) (hav : fs.super.avail ≠ 0)
    (hne : d.start ≠ fs.super.avail) (hs : d.start < 0x800000) (hb : fs.super.avail < 0x800000)
    (hbuf : buf.length = 16) (hroom : (header fs.dev d.start).length + 32 ≤ 512)
    (h : OpenFile.append (d.taken fs) d.start buf = (code, fs')) :
    code = 0 ∧ Made fs d.start fs.super.avail (header fs.dev d.start).length buf fs' ∧
      fs'.openFiles = Function.update fs.openFiles d.start
        (some { o with metaData :=
          { header fs.dev d.start with length := (header fs.dev d.start).length + 16 } }) := by
  have hL := congrArg MetaData.length hdisk
  obtain ⟨hcode, A⟩ := appended_of_room ho hav hne hs hb hbuf hL hroom h
  obtain ⟨-, rfl⟩ := append_room ho hav hs hb hbuf hL hroom h
  refine ⟨hcode, ⟨A, ?_⟩, by rw [hdisk]⟩
  dsimp only
  rw [hdisk, header_put (MetaData.words_lt header_words_lt (by omega))]

theorem onChain_iff {l : List Nat} (h : Linked fs.fat 0 s l) : OnChain fs s x ↔ x ∈ l := by
  constructor
  · rintro ⟨l', h', hx⟩
    rwa [← h'.unique h]
  · exact fun hx => ⟨l, h, hx⟩

namespace Tree

variable (T : Tree fs)
include T

theorem root_chain : Linked fs.fat 0 fs.super.root [fs.super.root] :=
  ⟨rfl, T.root, (T.dir _ .root).2.2.2⟩

theorem entry_owns (hs : Dir fs s) (hi : i < (header fs.dev s).length / 16) :
    Owns fs (.entry s i) (entryStart fs s i) := by
  obtain ⟨hne, l, hl⟩ := T.chain s i hs hi
  exact ⟨hs, hi, OnChain.head hl hne⟩

/-- A directory is not free. -/
theorem dir_owned (hs : Dir fs s) : ∃ a, a ≠ .free ∧ Owns fs a s := by
  cases hs with
  | root => exact ⟨.root, nofun, _, T.root_chain, List.mem_cons_self⟩
  | @entry t i ht hi _ => exact ⟨.entry t i, Slot.entry_ne_free, T.entry_owns ht hi⟩

theorem dir_inArea (hs : Dir fs s) : InArea fs.super.nBlocks s := by
  obtain ⟨a, -, ha⟩ := T.dir_owned hs
  exact T.owned.sound a s ha

theorem dir_lt (hs : Dir fs s) : s < 0x800000 := Nat.lt_of_lt_of_le (T.dir_inArea hs).2 T.size

theorem entries_le (hs : Dir fs s) : (header fs.dev s).length / 16 ≤ 31 := by
  have := (T.dir s hs).2.2.1
  omega

theorem avail_owns (hav : fs.super.avail ≠ 0) : Owns fs .free fs.super.avail := by
  obtain ⟨l, hl⟩ := T.avail
  exact OnChain.head hl hav

theorem avail_lt (hav : fs.super.avail ≠ 0) : fs.super.avail < 0x800000 :=
  Nat.lt_of_lt_of_le (T.owned.sound _ _ (T.avail_owns hav)).2 T.size

theorem dir_ne_avail (hs : Dir fs s) (hav : fs.super.avail ≠ 0) : s ≠ fs.super.avail := by
  obtain ⟨a, ha, has⟩ := T.dir_owned hs
  exact T.owned.ne has (T.avail_owns hav) ha

theorem flat : Flat fs :=
  ⟨fun _ => T.dir_lt, fun _ => T.dir_ne_avail,
    fun s hs => ⟨(T.dir s hs).2.1, (T.dir s hs).2.2.1⟩⟩

end Tree

section

variable (T : Tree fs) (F : Flat fs) (hs : Dir fs s) (hav : fs.super.avail ≠ 0)
  (hL : (header fs.dev s).length = L)
  (hroom : L + 32 ≤ 512) (M : Made fs s fs.super.avail L entry fs')
  (hentry : decodeLE (entry.drop 12) = fs.super.avail)

namespace Made

include M in
theorem frame {x i : Nat} (hi : i < 512) (hx : x ≠ fs.super.avail)
    (hxs : x = s → 16 ≤ i ∧ (i < L + 16 ∨ L + 32 ≤ i)) :
    fs'.dev (x * 512 + i) = fs.dev (x * 512 + i) :=
  M.bytes x i hi (fun h => absurd h hx) hxs

include M in
theorem header_of_ne (hb : t ≠ fs.super.avail) (hts : t ≠ s) :
    header fs'.dev t = header fs.dev t :=
  header_congr fun i hi => M.frame (by omega) hb fun h => absurd h hts

include M in
theorem header_type (ht : t ≠ fs.super.avail) :
    (header fs'.dev t).type = (header fs.dev t).type := by
  rcases Nat.decEq t s with hne | rfl
  · rw [M.header_of_ne ht hne]
  · rw [M.self]

include F hav hL M in
/-- The entries that were there name the same blocks. -/
theorem entryStart_old (ht : Dir fs t) (hj : j < (header fs.dev t).length / 16) :
    entryStart fs' t j = entryStart fs t j := by
  have hj31 : j < 31 := by have := (F.length t ht).2; omega
  rw [entryStart, entryStart, Fat439Directory.entryAddr_of_lt hj31 (F.lt t ht),
    Fat439Directory.entryAddr_of_lt hj31 (F.lt t ht)]
  refine congrArg decodeLE (slice_congr fun o ho => ?_)
  rw [Nat.add_assoc, Nat.add_assoc]
  refine M.frame (by omega) (F.ne_avail _ ht hav) ?_
  rintro rfl
  omega

include F hs hroom hL M hentry in
/-- The new entry names the new block. -/
theorem entryStart_new : entryStart fs' s (L / 16) = fs.super.avail := by
  have hmod : L % 16 = 0 := hL ▸ (F.length s hs).1
  rw [entryStart, Fat439Directory.entryAddr_of_lt (by omega) (F.lt s hs),
    show s * 512 + (16 + L / 16 * 16) + 12 = s * 512 + (L + 16) + 12 by omega,
    word_of_entry M.entry, hentry]

include F hs hav hroom hL M hentry in
/-- An entry is an old one or the new one. -/
theorem entry_cases (ht : Dir fs t ∨ t = fs.super.avail) :
    i < (header fs'.dev t).length / 16 ↔
      (Dir fs t ∧ i < (header fs.dev t).length / 16 ∧
        entryStart fs' t i = entryStart fs t i) ∨
      (t = s ∧ i = L / 16 ∧ entryStart fs' t i = fs.super.avail) := by
  have hsb := F.ne_avail s hs hav
  have hnew := entryStart_new F hs hL hroom M hentry
  rcases ht with ht | rfl
  · rcases Nat.decEq t s with hne | rfl
    · rw [M.header_of_ne (F.ne_avail _ ht hav) hne]
      constructor
      · exact fun hi => .inl ⟨ht, hi, entryStart_old F hav hL M ht hi⟩
      · rintro (⟨-, hi, -⟩ | ⟨rfl, -⟩)
        · exact hi
        · exact absurd rfl hne
    · rw [M.self, hL]
      dsimp only
      constructor
      · intro hi
        rcases Nat.lt_or_ge i (L / 16) with hlt | hge
        · exact .inl ⟨ht, hlt, entryStart_old F hav hL M ht (hL ▸ hlt)⟩
        · obtain rfl : i = L / 16 := by omega
          exact .inr ⟨rfl, rfl, hnew⟩
      · rintro (⟨-, hi, -⟩ | ⟨-, rfl, -⟩) <;> omega
  · rw [M.new]
    constructor
    · intro hi; simp at hi
    · rintro (⟨ht, -⟩ | ⟨he, -⟩)
      · exact absurd rfl (F.ne_avail _ ht hav)
      · exact absurd he.symm hsb

include T hs hav hroom hL M hentry in
theorem dir_iff : Dir fs' t ↔ Dir fs t ∨ t = fs.super.avail := by
  have hroot : fs'.super.root = fs.super.root := by rw [M.super]
  have hold : ∀ t, Dir fs t → Dir fs' t := by
    intro t ht
    induction ht with
    | root => exact hroot ▸ .root
    | @entry u i hu hi htype ih =>
      have he := entryStart_old T.flat hav hL M hu hi
      have hne : entryStart fs u i ≠ fs.super.avail :=
        T.owned.ne (T.entry_owns hu hi) (T.avail_owns hav) Slot.entry_ne_free
      rw [← he]
      refine .entry ih ((entry_cases T.flat hs hav hL hroom M hentry (.inl hu)).mpr
        (.inl ⟨hu, hi, he⟩)) ?_
      rw [he, header_type M hne, htype]
  constructor
  · intro ht
    induction ht with
    | root => exact .inl (hroot ▸ .root)
    | @entry u i hu hi htype ih =>
      rcases (entry_cases T.flat hs hav hL hroom M hentry ih).mp hi with ⟨hd, hlt, he⟩ |
        ⟨-, -, he⟩
      · have hne : entryStart fs u i ≠ fs.super.avail :=
          T.owned.ne (T.entry_owns hd hlt) (T.avail_owns hav) Slot.entry_ne_free
        rw [he, header_type M hne] at htype
        exact .inl (he ▸ .entry hd hlt htype)
      · exact .inr he
  · rintro (ht | rfl)
    · exact hold t ht
    · have hnew := entryStart_new T.flat hs hL hroom M hentry
      have hlt := (entry_cases T.flat hs hav hL hroom M hentry (.inl hs) (i := L / 16)).mpr
        (.inr ⟨rfl, rfl, hnew⟩)
      have := Dir.entry (hold s hs) hlt (by rw [hnew, M.new])
      rwa [hnew] at this

include T hav M in
/-- The chains but for the free one do not change. -/
theorem onChain_old {a : Slot} (ha : a ≠ .free) {l : List Nat} (hl : Linked fs.fat 0 y l)
    (ho : ∀ z ∈ l, Owns fs a z) : OnChain fs' y x ↔ OnChain fs y x := by
  have hl' : Linked fs'.fat 0 y l := hl.congr fun z hz => by
    rw [M.fat]
    exact Function.update_of_ne (T.owned.ne (ho z hz) (T.avail_owns hav) ha) ..
  rw [onChain_iff hl, onChain_iff hl']

include T hs hav hroom hL M hentry in
/-- The new block goes from the free chain to the new entry. -/
theorem owns_iff (a : Slot) (x : Nat) : Owns fs' a x ↔
    Owns fs a x ∧ ¬(a = .free ∧ x = fs.super.avail) ∨ a = .entry s (L / 16) ∧
    x = fs.super.avail := by
  have hmod : L % 16 = 0 := hL ▸ (T.dir s hs).2.1
  have hroot : fs'.super.root = fs.super.root := by rw [M.super]
  cases a with
  | free =>
    obtain ⟨l, hl⟩ := T.avail
    obtain ⟨l', rfl⟩ := hl.head_mem hav
    have hl' : Linked fs'.fat 0 fs'.super.avail l' := by
      rw [M.super]
      exact hl.pop fun z hz => by rw [M.fat]; exact Function.update_of_ne hz ..
    have hnd := (List.nodup_cons.mp hl.nodup).1
    rw [Owns, Owns, onChain_iff hl, onChain_iff hl', List.mem_cons]
    constructor
    · exact fun hx => .inl ⟨.inr hx, fun h => hnd (h.2 ▸ hx)⟩
    · rintro (⟨hx, hne⟩ | ⟨h, -⟩)
      · exact hx.resolve_left fun h => hne ⟨rfl, h⟩
      · cases h
  | root =>
    rw [Owns, Owns, hroot, onChain_old T hav M (a := .root) nofun T.root_chain
      fun z hz => ⟨_, T.root_chain, hz⟩]
    simp
  | entry t i =>
    have hb : fs'.fat fs.super.avail = 0 := by rw [M.fat, Function.update_self]
    have hnewchain : OnChain fs' fs.super.avail x ↔ x = fs.super.avail := by
      rw [onChain_iff (l := [fs.super.avail]) ⟨rfl, hav, hb⟩, List.mem_singleton]
    rw [Owns, dir_iff T hs hav hL hroom M hentry]
    constructor
    · rintro ⟨ht, hi, hx⟩
      rcases (entry_cases T.flat hs hav hL hroom M hentry ht).mp hi with ⟨hd, hlt, he⟩ |
        ⟨rfl, rfl, he⟩
      · obtain ⟨hne, l, hl⟩ := T.chain t i hd hlt
        rw [he, onChain_old T hav M (a := .entry t i) Slot.entry_ne_free hl
          fun z hz => ⟨hd, hlt, l, hl, hz⟩] at hx
        exact .inl ⟨⟨hd, hlt, hx⟩, nofun⟩
      · rw [he, hnewchain] at hx
        exact .inr ⟨rfl, hx⟩
    · rintro (⟨⟨hd, hlt, hx⟩, -⟩ | ⟨h, rfl⟩)
      · have he := entryStart_old T.flat hav hL M hd hlt
        obtain ⟨hne, l, hl⟩ := T.chain t i hd hlt
        refine ⟨.inl hd, (entry_cases T.flat hs hav hL hroom M hentry (.inl hd)).mpr
          (.inl ⟨hd, hlt, he⟩), ?_⟩
        rw [he, onChain_old T hav M (a := .entry t i) Slot.entry_ne_free hl fun z hz => ⟨hd, hlt,
          l, hl, hz⟩]
        exact hx
      · cases h
        have hnew := entryStart_new T.flat hs hL hroom M hentry
        refine ⟨.inl hs, (entry_cases T.flat hs hav hL hroom M hentry (.inl hs)).mpr
          (.inr ⟨rfl, rfl, hnew⟩), ?_⟩
        rw [hnew, hnewchain]

end Made

include T hs hav hroom hL M hentry in
/-- `mkdir` keeps a tree. -/
theorem Tree.made : Tree fs' := by
  have hmod : L % 16 = 0 := hL ▸ (T.dir s hs).2.1
  have hnb : fs'.super.nBlocks = fs.super.nBlocks := by rw [M.super]
  have hlinked : ∀ {a y l}, a ≠ .free → Linked fs.fat 0 y l → (∀ z ∈ l, Owns fs a z) →
      Linked fs'.fat 0 y l := fun ha hl ho => hl.congr fun z hz => by
    rw [M.fat]
    exact Function.update_of_ne (T.owned.ne (ho z hz) (T.avail_owns hav) ha) ..
  refine ⟨hnb ▸ T.size, ?_, ?_, ?_, ?_, fun t ht => ?_, fun t i ht hi => ?_⟩
  · rw [hnb]
    exact T.owned.move (T.avail_owns hav) (Made.owns_iff T hs hav hL hroom M hentry)
  · obtain ⟨l, hl⟩ := T.avail
    obtain ⟨l', rfl⟩ := hl.head_mem hav
    refine ⟨l', ?_⟩
    rw [M.super]
    exact hl.pop fun z hz => by rw [M.fat]; exact Function.update_of_ne hz ..
  · rw [M.super]; exact T.root
  · rw [M.fat, Function.update_of_ne (Ne.symm hav)]; exact T.zero
  · rcases (Made.dir_iff T hs hav hL hroom M hentry).mp ht with hd | rfl
    · have hfat : fs'.fat t = 0 := by
        rw [M.fat, Function.update_of_ne (T.dir_ne_avail hd hav)]
        exact (T.dir t hd).2.2.2
      rcases Nat.decEq t s with hne | rfl
      · rw [M.header_of_ne (T.dir_ne_avail hd hav) hne, hfat]
        exact ⟨(T.dir t hd).1, (T.dir t hd).2.1, (T.dir t hd).2.2.1, rfl⟩
      · rw [M.self, hfat]
        exact ⟨(T.dir t hd).1, by dsimp only; omega, by dsimp only; omega, rfl⟩
    · rw [M.new, M.fat, Function.update_self]
      exact ⟨rfl, rfl, Nat.zero_le _, rfl⟩
  · have ht' := (Made.dir_iff T hs hav hL hroom M hentry).mp ht
    rcases (Made.entry_cases T.flat hs hav hL hroom M hentry ht').mp hi with ⟨hd, hlt, he⟩ |
      ⟨-, -, he⟩
    · obtain ⟨hne, l, hl⟩ := T.chain t i hd hlt
      rw [he]
      exact ⟨hne, l, hlinked (a := .entry t i) Slot.entry_ne_free hl fun z hz => ⟨hd, hlt,
        l, hl, hz⟩⟩
    · rw [he]
      exact ⟨hav, [fs.super.avail], rfl, hav, by rw [M.fat, Function.update_self]; rfl⟩

end

end

/-! ## An entry is removed -/

/-- The entry that a search over the entries of the directory finds. -/
theorem search_entryStart {fs : Fat439} {d : Fat439Directory} {entry : Nat → UInt8}
    {name : List UInt8} {n k x : Nat} (h : Fat439Directory.search fs d name n 0 entry = some (k, x))
    (hk : k < (fs.metaData d.start).length / 16) (hL : (fs.metaData d.start).length < 0x1000) :
    entryStart fs d.start k = x := by
  have hpre := Fat439Directory.search_prefix h (m := k + 1) (by omega)
  rw [Fat439Directory.search_eq fun j _ hj => Fat439Directory.readFully_entry (by omega) (by omega)]
    at hpre
  obtain ⟨j, -, hj⟩ := Option.map_eq_some_iff.mp hpre
  cases hj
  rfl

section

variable {fs fs' : Fat439} {s t blk i k x y newsz : Nat}

/-- The entries that are left name the blocks they named. -/
theorem Freed.entryStart_eq (F : Freed fs s blk newsz fs') (ht : InArea fs.super.nBlocks t)
    (hn : fs.super.nBlocks ≤ 0x800000) (hi : i < 31) :
    entryStart fs' t i = entryStart fs t i := by
  have hlt := Nat.lt_of_lt_of_le ht.2 hn
  rw [entryStart, entryStart, Fat439Directory.entryAddr_of_lt hi hlt,
    Fat439Directory.entryAddr_of_lt hi hlt]
  refine congrArg decodeLE (slice_congr fun o ho => ?_)
  rw [Nat.add_assoc, Nat.add_assoc]
  exact F.frame ht (by omega) (by omega)

section

variable (T : Tree fs) (hs : Dir fs s) (hk : (header fs.dev s).length = (k + 1) * 16)
  (hblk : entryStart fs s k = blk) (hdisk : fs.metaData s = header fs.dev s)
  (hleaf : Dir fs blk → (header fs.dev blk).length < 16) (F : Freed fs s blk (k * 16) fs')

namespace Tree

include T in
/-- No entry names the directory it is in, nor the root. -/
theorem entryStart_ne (ht : Dir fs t) (hi : i < (header fs.dev t).length / 16) :
    entryStart fs t i ≠ t ∧ entryStart fs t i ≠ fs.super.root := by
  have hroot : ∀ u j, Dir fs u → j < (header fs.dev u).length / 16 →
      entryStart fs u j ≠ fs.super.root :=
    fun u j hu hj => T.owned.ne (T.entry_owns hu hj)
      (show Owns fs .root fs.super.root from OnChain.head T.root_chain T.root) nofun
  refine ⟨?_, hroot t i ht hi⟩
  induction ht generalizing i with
  | root => exact hroot _ i .root hi
  | @entry u j hu hj htype ih =>
    intro he
    have hown := T.entry_owns hu hj
    have hd : Dir fs (entryStart fs u j) := .entry hu hj htype
    have hself := T.entry_owns hd hi
    rw [he] at hself
    obtain ⟨hue, rfl⟩ := Slot.entry.inj (T.owned.unique _ _ _ hself hown)
    rw [hue] at hi he
    exact ih hi he

end Tree

namespace Freed

include T hs hk hblk in
theorem blk_ne : blk ≠ s ∧ blk ≠ fs.super.root := by
  have := T.entryStart_ne hs (i := k) (by omega)
  rwa [hblk] at this

include T hs hk hblk in
theorem blk_owns : Owns fs (.entry s k) blk := hblk ▸ T.entry_owns hs (by omega)

include T hs hk hblk hdisk F in
theorem header_dir (ht : Dir fs t) (hne : t ≠ blk) : header fs'.dev t =
    if t = s then { header fs.dev s with length := k * 16 } else header fs.dev t := by
  have := T.entries_le hs
  split
  next he =>
    subst he
    exact F.header_self (T.dir_inArea ht) (blk_ne T hs hk hblk).1 hdisk (by omega)
  next hts => exact F.header_of_ne (T.dir_inArea ht) hts hne

include hk in
/-- The entries that are left. -/
theorem left_entry (hi : i < (if t = s then { header fs.dev s with length := k * 16 }
    else header fs.dev t).length / 16) :
    i < (header fs.dev t).length / 16 ∧ Slot.entry t i ≠ .entry s k := by
  split at hi
  next he =>
    subst he
    dsimp only at hi
    exact ⟨by omega, fun h => by have := (Slot.entry.inj h).2; omega⟩
  next hts => exact ⟨hi, fun h => hts (Slot.entry.inj h).1⟩

include T hs hk hblk hdisk hleaf F in
theorem dir_iff : Dir fs' t ↔ Dir fs t ∧ t ≠ blk := by
  have hroot : fs'.super.root = fs.super.root := by rw [F.super]
  have hlen : ∀ {u}, Dir fs u → u ≠ blk → ∀ j, j < (header fs'.dev u).length / 16 ↔
      j < (header fs.dev u).length / 16 ∧ ¬(u = s ∧ j = k) := by
    intro u hu hne j
    rw [header_dir T hs hk hblk hdisk F hu hne]
    split
    next he =>
      subst he
      dsimp only
      omega
    next hus => exact ⟨fun h => ⟨h, fun he => hus he.1⟩, fun h => h.1⟩
  have hstart : ∀ {u j}, Dir fs u → j < (header fs.dev u).length / 16 →
      entryStart fs' u j = entryStart fs u j := fun hu hj =>
    F.entryStart_eq (T.dir_inArea hu) T.size (by have := T.entries_le hu; omega)
  constructor
  · intro ht
    induction ht with
    | root => exact hroot ▸ ⟨.root, (blk_ne T hs hk hblk).2.symm⟩
    | @entry u j _ hj htype ih =>
      obtain ⟨hu, hub⟩ := ih
      obtain ⟨hj', hne⟩ := (hlen hu hub j).mp hj
      rw [hstart hu hj'] at htype ⊢
      have heb : entryStart fs u j ≠ blk := by
        intro he
        have := T.owned.unique _ _ _ (he ▸ T.entry_owns hu hj') (blk_owns T hs hk hblk)
        cases this
        exact hne ⟨rfl, rfl⟩
      refine ⟨?_, heb⟩
      rcases Nat.decEq (entryStart fs u j) s with hes | hes
      · rw [F.header_of_ne (T.owned.sound _ _ (T.entry_owns hu hj')) hes heb] at htype
        exact .entry hu hj' htype
      · rw [hes]; exact hs
  · rintro ⟨ht, hne⟩
    induction ht with
    | root => exact hroot ▸ .root
    | @entry u j hu hj htype ih =>
      have hub : u ≠ blk := by
        rintro rfl
        have := hleaf hu
        omega
      have hj' := (hlen hu hub j).mpr ⟨hj, by rintro ⟨rfl, rfl⟩; exact hne hblk⟩
      have hd : Dir fs (entryStart fs u j) := .entry hu hj htype
      rw [← hstart hu hj]
      refine .entry (ih hub) hj' ?_
      rw [hstart hu hj, header_dir T hs hk hblk hdisk F hd hne]
      split
      next he => rw [he] at htype; exact htype
      next => exact htype

include T hs hk hblk hdisk hleaf F in
/-- The blocks of the object go to the free chain. -/
theorem owns_iff (a : Slot) (x : Nat) : Owns fs' a x ↔
    Owns fs a x ∧ a ≠ .entry s k ∨ a = .free ∧ Owns fs (.entry s k) x := by
  obtain ⟨c, last, hc, hfat⟩ := F.fat
  obtain ⟨l, hl⟩ := T.avail
  have hown : ∀ z, Owns fs (.entry s k) z ↔ z ∈ c ++ [last] := fun z => by
    rw [Owns, hblk, onChain_iff hc]
    exact ⟨fun h => h.2.2, fun h => ⟨hs, by omega, h⟩⟩
  have hdisj : ∀ z ∈ c ++ [last], z ∉ l := fun z hz hz' => by
    cases T.owned.unique _ _ _ ((hown z).mpr hz) (show Owns fs .free z from ⟨l, hl, hz'⟩)
  have hjoin : Linked fs'.fat 0 fs'.super.avail (c ++ last :: l) := by
    rw [F.super]
    exact hc.join hl hdisj (by rw [hfat, Function.update_self]) fun z hz => by
      rw [hfat, Function.update_of_ne hz]
  -- the other chains do not change
  have hold : ∀ {a : Slot} {y l}, a ≠ .entry s k → Linked fs.fat 0 y l →
      (∀ z ∈ l, Owns fs a z) →
      (OnChain fs' y x ↔ OnChain fs y x) := fun ha hl ho => by
    have hl' := hl.congr fun z hz => show fs'.fat z = fs.fat z by
      rw [hfat]
      exact Function.update_of_ne (T.owned.ne (ho z hz) ((hown last).mpr (by simp)) ha) ..
    rw [onChain_iff hl, onChain_iff hl']
  cases a with
  | free =>
    rw [hown, Owns, Owns, onChain_iff hjoin, onChain_iff hl, List.append_cons, List.mem_append]
    simp [or_comm]
  | root =>
    rw [Owns, Owns, show fs'.super.root = fs.super.root by rw [F.super],
      hold (a := .root) nofun T.root_chain fun z hz => ⟨_, T.root_chain, hz⟩]
    simp
  | entry t i =>
    rw [Owns, Owns, dir_iff T hs hk hblk hdisk hleaf F]
    constructor
    · rintro ⟨⟨ht, hne⟩, hi, hx⟩
      rw [header_dir T hs hk hblk hdisk F ht hne] at hi
      obtain ⟨hi', hne'⟩ := left_entry hk hi
      have := T.entries_le ht
      obtain ⟨-, l', hl'⟩ := T.chain t i ht hi'
      rw [F.entryStart_eq (T.dir_inArea ht) T.size (by omega),
        hold (a := .entry t i) hne' hl' fun z hz => ⟨ht, hi', l', hl', hz⟩] at hx
      exact .inl ⟨⟨ht, hi', hx⟩, hne'⟩
    · rintro (⟨⟨ht, hi, hx⟩, hne'⟩ | ⟨h, -⟩)
      · have hne : t ≠ blk := by
          rintro rfl
          have := hleaf ht
          omega
        have := T.entries_le ht
        obtain ⟨-, l', hl'⟩ := T.chain t i ht hi
        refine ⟨⟨ht, hne⟩, ?_, ?_⟩
        · rw [header_dir T hs hk hblk hdisk F ht hne]
          split
          next he =>
            subst he
            have hik : i ≠ k := fun h => hne' (h ▸ rfl)
            dsimp only
            omega
          next => exact hi
        · rw [F.entryStart_eq (T.dir_inArea ht) T.size (by omega),
            hold (a := .entry t i) hne' hl' fun z hz => ⟨ht, hi, l', hl', hz⟩]
          exact hx
      · cases h

include T hs hk hblk hdisk hleaf F in
/-- The removal keeps a tree. -/
theorem tree : Tree fs' := by
  obtain ⟨c, last, hc, hfat⟩ := F.fat
  have hnb : fs'.super.nBlocks = fs.super.nBlocks := by rw [F.super]
  have hlast : Owns fs (.entry s k) last := ⟨hs, by omega, hblk ▸ ⟨_, hc, by simp⟩⟩
  have hfat_ne : ∀ {a z}, a ≠ .entry s k → Owns fs a z → fs'.fat z = fs.fat z :=
    fun ha hz => by
    rw [hfat]
    exact Function.update_of_ne (T.owned.ne hz hlast ha) ..
  have howns := owns_iff T hs hk hblk hdisk hleaf F
  refine ⟨hnb ▸ T.size, ?_, ?_, ?_, ?_, fun t ht => ?_, fun t i ht hi => ?_⟩
  · rw [hnb]
    exact T.owned.handOver (a := .entry s k) (b := .free) Slot.entry_ne_free howns
  · obtain ⟨l, hl, -⟩ := (howns .free blk).mpr (.inr ⟨rfl, blk_owns T hs hk hblk⟩)
    exact ⟨l, hl⟩
  · rw [F.super]; exact T.root
  · have h0 : last ≠ 0 := (T.owned.sound _ _ hlast).ne_zero
    rw [hfat, Function.update_of_ne h0.symm]
    exact T.zero
  · obtain ⟨hd, hne⟩ := (dir_iff T hs hk hblk hdisk hleaf F).mp ht
    obtain ⟨htype, h16, h496, h0⟩ := T.dir t hd
    have hfat0 : fs'.fat t = 0 := by
      rw [← h0]
      cases hd with
      | root => exact hfat_ne (a := .root) nofun ⟨_, T.root_chain, List.mem_cons_self⟩
      | @entry u j hu hj _ =>
        refine hfat_ne (a := .entry u j) (fun h => hne ?_) (T.entry_owns hu hj)
        obtain ⟨rfl, rfl⟩ := Slot.entry.inj h
        exact hblk
    rw [header_dir T hs hk hblk hdisk F hd hne, hfat0]
    split
    next he =>
      subst he
      exact ⟨htype, by dsimp only; omega, by dsimp only; omega, rfl⟩
    next => exact ⟨htype, h16, h496, rfl⟩
  · obtain ⟨hd, hne⟩ := (dir_iff T hs hk hblk hdisk hleaf F).mp ht
    obtain ⟨hi', hne'⟩ : i < (header fs.dev t).length / 16 ∧
        Slot.entry t i ≠ .entry s k := by
      rw [header_dir T hs hk hblk hdisk F hd hne] at hi
      exact left_entry hk hi
    have := T.entries_le hd
    obtain ⟨h0, l, hl⟩ := T.chain t i hd hi'
    rw [F.entryStart_eq (T.dir_inArea hd) T.size (by omega)]
    exact ⟨h0, l, hl.congr fun z hz => hfat_ne hne' ⟨hd, hi', l, hl, hz⟩⟩

end Freed

end

end

/-! ## Runs -/

section

variable {fs fs' : Fat439} {img : Image} {n k s i blk : Nat} {files : List HostFile}
  {cs : List (List Nat)}
  {free : List Nat} {m m' : Mount} {op : Op} {ops : List Op}

theorem dir_openFiles {p : Nat → Option OpenFile} {q : Nat} :
    Dir { fs with openFiles := p, openFilesMutex := q } s ↔ Dir fs s := by
  constructor
  · intro h
    induction h with
    | root => exact .root
    | entry _ hi ht ih => exact .entry ih hi ht
  · intro h
    induction h with
    | root => exact @Dir.root { fs with openFiles := p, openFilesMutex := q }
    | entry _ hi ht ih =>
      exact @Dir.entry { fs with openFiles := p, openFilesMutex := q } _ _ ih hi ht

theorem Tree.openFiles (T : Tree fs) {p : Nat → Option OpenFile} :
    Tree { fs with openFiles := p } := by
  have hdir : ∀ s, Dir { fs with openFiles := p } s ↔ Dir fs s := fun s => dir_openFiles
  refine ⟨T.size, T.owned.congr (fun a x => ?_) fun x => Iff.rfl, T.avail, T.root, T.zero,
    fun s hs => T.dir s ((hdir s).mp hs), fun s i hs => T.chain s i ((hdir s).mp hs)⟩
  cases a with
  | free => rfl
  | root => rfl
  | entry s i => exact and_congr_left' (hdir s)

namespace Built

variable (B : Built img files.length files cs free) (hn : img.nBlocks ≤ 0x800000)
include B

theorem length_root : (Fs.header img.toDev img.root).length / 16 = files.length := by
  rw [B.header_root]
  exact Nat.mul_div_cancel _ (by simp)

include hn

/-- The entries of the root directory name the files. -/
theorem entryStart_root (h31 : files.length ≤ 31) (hi : i < files.length) :
    entryStart img.toFs img.root i = (cs.get ⟨i, B.length ▸ hi⟩).headD 0 := by
  have hc := List.getElem?_eq_getElem (l := cs) (B.length ▸ hi)
  have hlt : img.root < 0x800000 := Nat.lt_of_lt_of_le B.root_inArea.2 hn
  have hentry := B.entry i _ _ (List.getElem?_eq_getElem hi) hc
  have hslice : slice img.toFs.dev (img.root * 512 + (16 + i * 16)) 16 =
      slice img.blocks (img.root * 512 + (16 + i * 16)) 16 := slice_congr fun j hj => by
    rw [Nat.add_assoc]
    exact Image.toDev_of_inArea B.root_inArea
  have hcm : cs.get ⟨i, B.length ▸ hi⟩ ∈ [img.root] :: cs :=
    List.mem_cons_of_mem _ (List.getElem_mem _)
  simp only [List.get_eq_getElem] at hcm ⊢
  obtain ⟨l, hl⟩ := (B.layout.chain _ hcm).2.head_mem fun h0 =>
    (B.layout.chain _ hcm).1 ((B.layout.chain _ hcm).2.eq_nil_iff.mp h0)
  have hx := (B.layout.inArea hcm (hl ▸ List.mem_cons_self)).2
  rw [entryStart, Fat439Directory.entryAddr_of_lt (by omega) hlt,
    word_of_entry (hslice.trans hentry), List.drop_left' strncpy_length, decode_le32 (by omega)]

/-- An image has no directory but the root. -/
theorem dir_root (h31 : files.length ≤ 31) (hs : Dir img.toFs s) : s = img.root := by
  induction hs with
  | root => rfl
  | @entry t i ht hi htype ih =>
    subst ih
    rw [show Fs.header img.toFs.dev img.root = _ from B.header_root] at hi
    have hi' : i < files.length := by dsimp only at hi; omega
    have hc := List.getElem?_eq_getElem (l := cs) (B.length ▸ hi')
    have S := B.stored i _ _ (List.getElem?_eq_getElem hi') hc
    have hcm : cs.get ⟨i, B.length ▸ hi'⟩ ∈ [img.root] :: cs :=
      List.mem_cons_of_mem _ (List.getElem_mem _)
    rw [List.get_eq_getElem] at hcm
    obtain ⟨l, hl⟩ := (B.layout.chain _ hcm).2.head_mem fun h0 =>
      (B.layout.chain _ hcm).1 ((B.layout.chain _ hcm).2.eq_nil_iff.mp h0)
    have hx := B.layout.inArea hcm (hl ▸ List.mem_cons_self)
    rw [B.entryStart_root hn h31 hi', List.get_eq_getElem, show img.toFs.dev = img.toDev from rfl,
      header_congr fun j _ => Image.toDev_of_inArea hx, S.header] at htype
    cases htype

theorem tree (h31 : files.length ≤ 31) : Tree img.toFs := by
  have L := B.layout
  have hroot := B.root_inArea
  have hr0 : img.root ≠ 0 := by have := hroot.1; omega
  have hmem : ∀ {i} (hi : i < files.length), cs.get ⟨i, B.length ▸ hi⟩ ∈ [img.root] ::
      cs := fun hi =>
    List.mem_cons_of_mem _ (List.getElem_mem _)
  have hrootchain : Linked img.toFs.fat 0 img.toFs.super.root [img.root] :=
    (L.chain [img.root] (by simp)).2
  have havail : Linked img.toFs.fat 0 img.toFs.super.avail free := L.avail
  have hchain :
      ∀ {i} (hi : i < files.length),
      Linked img.toFs.fat 0 ((cs.get ⟨i, B.length ▸ hi⟩).headD 0)
      (cs.get ⟨i, B.length ▸ hi⟩) := fun hi => (L.chain _ (hmem hi)).2
  have hnd : (img.root :: (cs.flatten ++ free)).Nodup := L.nodup
  have hcs : ∀ {i x} (hi : i < files.length), x ∈ cs.get ⟨i, B.length ▸ hi⟩ →
      x ∈ cs.flatten :=
    fun hi hx => List.mem_flatten.mpr ⟨_, List.getElem_mem _, hx⟩
  have hdisj : ∀ {i j x} (hi : i < files.length) (hj : j < files.length), i < j →
      x ∈ cs.get ⟨i, B.length ▸ hi⟩ → x ∉ cs.get ⟨j, B.length ▸ hj⟩ := by
    intro i j x hi hj hij hx hx'
    have hp := (List.nodup_flatten.mp (List.nodup_append.mp (List.nodup_cons.mp hnd).2).1).2
    exact List.pairwise_iff_getElem.mp hp i j _ _ hij hx hx'
  -- who has a block, in terms of the chains of the image
  have howns : ∀ a x, Owns img.toFs a x ↔ (a = .free ∧ x ∈ free) ∨
      (a = .root ∧ x = img.root) ∨
      ∃ i, ∃ hi : i < files.length, a = .entry img.root i ∧
        x ∈ cs.get ⟨i, B.length ▸ hi⟩ := by
    intro a x
    cases a with
    | free =>
      rw [Owns, onChain_iff havail]
      simp
    | root =>
      rw [Owns, onChain_iff hrootchain]
      simp
    | entry s i =>
      constructor
      · rintro ⟨hs, hi, hx⟩
        obtain rfl := B.dir_root hn h31 hs
        have hi' : i < files.length := by rw [← B.length_root]; exact hi
        rw [B.entryStart_root hn h31 hi', onChain_iff (hchain hi')] at hx
        exact .inr (.inr ⟨i, hi', rfl, hx⟩)
      · rintro (⟨h, -⟩ | ⟨h, -⟩ | ⟨j, hj, h, hx⟩)
        · cases h
        · cases h
        · cases h
          refine ⟨.root, by rw [← B.length_root] at hj; exact hj, ?_⟩
          rw [B.entryStart_root hn h31 hj, onChain_iff (hchain hj)]
          exact hx
  refine ⟨hn, ⟨fun x hx => ?_, fun a x ha => ?_, fun a b x ha hb => ?_⟩,
    ⟨free, L.avail⟩, hr0, L.out 0 fun h => absurd h.1 (by omega),
    fun s hs => ?_, fun s i hs hi => ?_⟩
  · simp only [howns]
    have hx' : x ∈ img.root :: (cs.flatten ++ free) := (L.mem x).mpr hx
    rcases List.mem_cons.mp hx' with rfl | hx'
    · exact ⟨.root, .inr (.inl ⟨rfl, rfl⟩)⟩
    rcases List.mem_append.mp hx' with h | h
    · obtain ⟨c, hc, hxc⟩ := List.mem_flatten.mp h
      obtain ⟨i, hi, rfl⟩ := List.getElem_of_mem hc
      exact ⟨.entry img.root i, .inr (.inr ⟨i, B.length ▸ hi, rfl, hxc⟩)⟩
    · exact ⟨.free, .inl ⟨rfl, h⟩⟩
  · rcases (howns a x).mp ha with ⟨-, h⟩ | ⟨-, rfl⟩ | ⟨i, hi, -, h⟩
    · exact L.inArea_of_free h
    · exact hroot
    · exact L.inArea (hmem hi) h
  · have hroot' := (List.nodup_cons.mp hnd).1
    have hfree : ∀ {i} (hi : i < files.length), x ∈ cs.get ⟨i, B.length ▸ hi⟩ →
        x ∉ free := fun hi hx hf =>
      (List.nodup_append.mp (List.nodup_cons.mp hnd).2).2.2 x (hcs hi hx) x hf rfl
    rcases (howns a x).mp ha with ⟨rfl, h⟩ | ⟨rfl, h⟩ | ⟨i, hi, rfl, h⟩ <;>
      rcases (howns b x).mp hb with ⟨rfl, h'⟩ | ⟨rfl, h'⟩ | ⟨j, hj, rfl, h'⟩
    · rfl
    · exact absurd (List.mem_append_right _ (h' ▸ h)) hroot'
    · exact absurd h (hfree hj h')
    · exact absurd (List.mem_append_right _ (h ▸ h')) hroot'
    · rfl
    · exact absurd (List.mem_append_left _ (h ▸ hcs hj h')) hroot'
    · exact absurd h' (hfree hi h)
    · exact absurd (List.mem_append_left _ (h' ▸ hcs hi h)) hroot'
    · rcases Nat.lt_trichotomy i j with hij | rfl | hij
      · exact absurd h' (hdisj hi hj hij h)
      · rfl
      · exact absurd h (hdisj hj hi hij h')
  · obtain rfl := B.dir_root hn h31 hs
    rw [show Fs.header img.toFs.dev img.root = _ from B.header_root]
    exact ⟨rfl, by dsimp only; omega, by dsimp only; omega, hrootchain.2.2⟩
  · obtain rfl := B.dir_root hn h31 hs
    have hi' : i < files.length := by rw [← B.length_root]; exact hi
    rw [B.entryStart_root hn h31 hi']
    obtain ⟨hne, hl⟩ := L.chain _ (hmem hi')
    exact ⟨fun h0 => hne (hl.eq_nil_iff.mp h0), _, hl⟩

end Built

/-- The removal does not get to free blocks: there is no such entry, the entry is a directory with
entries, or there are two entries behind it, and the process is killed. -/
def Stops (fs : Fat439) (d : Fat439Directory) (entry entry' : Nat → UInt8)
    (name : List UInt8) : Prop :=
  let blk := d.lookup fs entry name
  let length := (fs.metaData d.start).length
  blk = 0 ∨ ((fs.metaData blk).type = TYPE_DIR ∧ (fs.metaData blk).length ≠ 0) ∨
    (16 ≤ length ∧ w32 (16 + (d.lookupEntry fs entry' name * 16 + 16).toNat) < length ∧
      length < 0x1000)

/-- The removal drops the entry that it finds, the last one of a directory of the tree: there are
two entries more than the name has characters. The cached headers are those on the device. -/
structure Drops (fs : Fat439) (d : Fat439Directory) (entry : Nat → UInt8)
    (name : List UInt8) : Prop where
  dir : Dir fs d.start
  metaData : fs.metaData d.start = header fs.dev d.start
  object : fs.metaData (d.lookup fs entry name) = header fs.dev (d.lookup fs entry name)
  dot : name ≠ [0x2e]
  dots : name ≠ [0x2e, 0x2e]
  length : name.idxOf 0 * 16 + 32 = (header fs.dev d.start).length
  last : (Fat439Directory.search fs d name d.entries 0 entry).map (·.1) =
    some ((header fs.dev d.start).length / 16 - 1)

/-- The operations that keep the blocks in order: a removal that frees blocks drops their entry, and
`mkdir` puts an entry into the first block of a directory of the tree only. -/
def Keeps (m : Mount) : Op → Prop
  | .mkdir i entry _ name => ∀ d, m.dirs[i]? = some d → d.mkdirError m.fs entry name = none →
      m.fs.super.avail ≠ 0 → Dir m.fs d.start ∧
      m.fs.metaData d.start = header m.fs.dev d.start ∧
        (m.fs.metaData d.start).length + 32 ≤ 512
  | .remove i entry entry' name => ∀ d, m.dirs[i]? = some d →
      Stops m.fs d entry entry' name ∨ Drops m.fs d entry name
  | _ => True

/-- The last entry is dropped and its blocks are freed. -/
structure Dropped (fs : Fat439) (s blk k : Nat) (fs' : Fat439) : Prop where
  length : (header fs.dev s).length = (k + 1) * 16
  entry : entryStart fs s k = blk
  leaf : Dir fs blk → (header fs.dev blk).length < 16
  freed : Freed fs s blk (k * 16) fs'

theorem Drops.dropped {d : Fat439Directory} {entry entry' : Nat → UInt8} {name : List UInt8}
    {fs₁ fs₂ : Fat439} (D : Drops fs d entry name) (T : Tree fs)
    (h0 : d.lookup fs entry name ≠ 0)
    (hobj : ¬((fs.metaData (d.lookup fs entry name)).type = TYPE_DIR ∧
      (fs.metaData (d.lookup fs entry name)).length ≠ 0))
    (hrem : OpenFile.remFromOffset (fs.openFile (d.lookup fs entry name)) d.start
      (d.lookupEntry (fs.openFile (d.lookup fs entry name)) entry' name * 16 + 16).toNat 16 =
        (.ret 0, fs₁))
    (hadd : (OpenFile.resize fs₁ (d.lookup fs entry name) 0).addAvailBlk (d.lookup fs entry name) =
      some fs₂) : Dropped fs d.start (d.lookup fs entry name) (name.idxOf 0 + 1) fs₂.sync := by
  obtain ⟨k, hk⟩ := lookup_ne_zero D.dot D.dots h0
  have hlen := D.length
  have hlast := D.last
  have hmeta := D.metaData
  have hidx := search_idxOf hk
  rw [hk, Option.map_some, Option.some.injEq] at hlast
  obtain rfl : k = name.idxOf 0 + 1 := by dsimp only at hlast; omega
  have hentry := search_entryStart hk (by rw [hmeta]; omega) (by rw [hmeta]; omega)
  have hblk := T.entryStart_ne D.dir (i := name.idxOf 0 + 1) (by omega)
  rw [hentry] at hblk
  rw [Fat439Directory.lookupEntry_openFile, lookupEntry_eq D.dot D.dots h0 (by rw [hmeta]; omega),
    show ((name.idxOf 0 : Int) * 16 + 16).toNat = (name.idxOf 0 + 1) * 16 by omega] at hrem
  have hfs₁ : fs₁ = (OpenFile.resize (fs.openFile (d.lookup fs entry name)) d.start
      ((name.idxOf 0 + 1) * 16)).unlock := by
    rcases remFromOffset_ret (by rw [Fat439.metaData_openFile, hmeta]; omega) hrem
      with ⟨h1, -⟩ | ⟨-, -, h⟩
    · rw [Fat439.metaData_openFile, hmeta] at h1
      omega
    · rwa [w32_of_lt (by omega)] at h
  have harea := T.owned.sound _ _ (T.entry_owns D.dir (i := name.idxOf 0 + 1) (by omega))
  rw [hentry] at harea
  refine ⟨by omega, hentry, fun hd => ?_, freed_of_removed (hfs₁ ▸ hadd) T.size
    (T.dir_lt D.dir) h0
    (Nat.lt_of_lt_of_le harea.2 T.size) hblk.1⟩
  rw [D.object, (T.dir _ hd).1] at hobj
  have : (header fs.dev (d.lookup fs entry name)).length = 0 :=
    not_not.mp fun h => hobj ⟨rfl, h⟩
  omega

theorem Dropped.tree (D : Dropped fs s blk k fs') (T : Tree fs) (hs : Dir fs s)
    (hdisk : fs.metaData s = header fs.dev s) : Tree fs' :=
  D.freed.tree T hs D.length D.entry hdisk D.leaf

theorem Stops.not_freed {d : Fat439Directory} {entry entry' : Nat → UInt8} {name : List UInt8}
    {fs₁ : Fat439} (h : Stops fs d entry entry' name) (h0 : d.lookup fs entry name ≠ 0)
    (hobj : ¬((fs.metaData (d.lookup fs entry name)).type = TYPE_DIR ∧
      (fs.metaData (d.lookup fs entry name)).length ≠ 0)) :
    OpenFile.remFromOffset (fs.openFile (d.lookup fs entry name)) d.start
      (d.lookupEntry (fs.openFile (d.lookup fs entry name)) entry' name * 16 + 16).toNat 16 ≠
        (.ret 0, fs₁) := by
  obtain ⟨h16, hlt, hL⟩ := (h.resolve_left h0).resolve_left hobj
  rw [OpenFile.remFromOffset, Fat439Directory.lookupEntry_openFile]
  dsimp only
  rw [Fat439.metaData_openFile, if_neg (by omega), if_neg (by omega), if_pos hL]
  exact fun h => Outcome.noConfusion (congrArg Prod.fst h)

theorem newEntry_start {entry : Nat → UInt8} {name : List UInt8} {x : Nat}
    (hx : x < 0x100000000) : decodeLE ((Fat439Directory.newEntry entry name x).drop 12) = x := by
  rw [Fat439Directory.newEntry, List.drop_left' (by rw [slice_length]), decode_le32 hx]

/-- The operations that keep the blocks in order keep a tree. -/
theorem Tree.step (T : Tree m.fs) (hc : AllOpen m) (hk : Keeps m op) (h : Step m op m') :
    Tree m'.fs ∧ m'.fs.super.nBlocks = m.fs.super.nBlocks := by
  cases h.effect with
  | same => exact ⟨T, rfl⟩
  | opened => exact ⟨T.openFiles, rfl⟩
  | openedFile => exact ⟨T.openFiles, rfl⟩
  | openedDir => exact ⟨T.openFiles, rfl⟩
  | closedFile => exact ⟨T.openFiles, rfl⟩
  | closedDir => exact ⟨T, rfl⟩
  | @made i d entry entry' name success fs' hop hd herr hav happ =>
    subst hop
    obtain ⟨hdir, hdisk, hroom⟩ := hk d hd herr hav
    obtain ⟨o, ho⟩ := hc.isOpen (List.mem_of_getElem? hd)
    have hb := T.avail_lt hav
    rw [hdisk] at hroom
    have hM := made_of_room ho ((Fat439.metaData_of_some ho).symm.trans hdisk) hav
      (T.dir_ne_avail hdir hav) (T.dir_lt hdir) hb Fat439Directory.newEntry_length hroom happ
    exact ⟨Tree.made T hdir hav rfl hroom hM.2.1 (newEntry_start (by omega)),
      by rw [hM.2.1.super]⟩
  | @freed i d entry entry' name fs₁ fs₂ hop hd h0 hobj hrem hadd =>
    subst hop
    have ht : m.target (.remove i entry entry' name) = d.lookup m.fs entry name := by
      rw [Mount.target, hd]; rfl
    rw [ht] at h0 hobj hrem hadd
    rcases hk d hd with hs | D
    · exact absurd hrem (hs.not_freed h0 hobj)
    · have hD := D.dropped T h0 hobj hrem hadd
      exact ⟨hD.tree T D.dir D.metaData, by rw [hD.freed.super]⟩

/-- After every run of operations that keep the blocks in order, each block of the data area is on
the free chain or on the chain of the root or of one entry, and on one of them only. -/
theorem blocks_owned (hn : n ≤ 0x800000) (hroom : 1 + fatBlocks n < n) (h31 : files.length ≤ 31)
    (hm : Mounted n files m) (hr : Run (Run.Within Step Keeps) m ops m') :
    Exact (Owns m'.fs) (InArea n) := by
  have hc : AllOpen m := by
    obtain ⟨img, -, hmount⟩ := hm
    exact mount_allOpen hmount
  obtain ⟨img, cs, free, B, rfl, rfl⟩ := hm.built hn hroom h31
  have hinv :=
    hr.inv_of (I := fun m => AllOpen m ∧ Tree m.fs ∧ m.fs.super.nBlocks = img.nBlocks)
    (fun s op t hI hk hs => ⟨hI.1.effect hs.effect, (hI.2.1.step hI.1 hk hs).1,
      (hI.2.1.step hI.1 hk hs).2.trans hI.2.2⟩) ⟨hc, (B.tree hn h31).openFiles, rfl⟩
  obtain ⟨-, T, hnb⟩ := hinv
  exact hnb ▸ T.owned

theorem blocks_owned_mkdir : ∃ m', Run (Run.Within Step Keeps) byteMount
    [.mkdir 0 (fun _ => 0) (fun _ => 0) [0x62]] m' ∧ Exact (Owns m'.fs) (InArea 8) := by
  have hsome : (byteMount.step (.mkdir 0 (fun _ => 0) (fun _ => 0) [0x62])).isSome = true := by
    decide +kernel
  obtain ⟨⟨r, m'⟩, hm'⟩ := Option.isSome_iff_exists.mp hsome
  have hkeeps : Keeps byteMount (.mkdir 0 (fun _ => 0) (fun _ => 0) [0x62]) := by
    intro d hd _ _
    obtain rfl : ⟨7, 1⟩ = d :=
      Option.some.inj ((show byteMount.dirs[0]? = some ⟨7, 1⟩ by decide).symm.trans hd)
    exact ⟨Dir.root, by decide +kernel, by decide +kernel⟩
  have hrun : Run (Run.Within Step Keeps) byteMount _ m' := .single ⟨⟨r, hm'⟩, hkeeps⟩
  exact ⟨m', hrun, blocks_owned (by decide) (by decide) (by decide) mounted_byteMount hrun⟩

/-- `remove("a")` through the root directory of `byteMount`. -/
def removeByteFile : Op := .remove 0 (fun _ => 0) (fun _ => 0) [0x61]

theorem removeByteFile_isSome : (byteMount.step removeByteFile).isSome = true := by decide +kernel

/-- After the removal of the only file, its block is free and the entry still names it. -/
theorem remove_leaves_owner : ∃ m', Mounted 8 [byteFile] byteMount ∧
    Run Step byteMount [removeByteFile] m' ∧ ¬Exact (Owns m'.fs) (InArea 8) := by
  refine ⟨((byteMount.step removeByteFile).get removeByteFile_isSome).2, mounted_byteMount,
    Run.single (.of_isSome _), fun hE => ?_⟩
  generalize hm' : ((byteMount.step removeByteFile).get removeByteFile_isSome).2 = m' at hE
  have hav : m'.fs.super.avail = 6 := by subst hm'; decide +kernel
  have hroot : m'.fs.super.root = 7 := by subst hm'; decide +kernel
  have hfat : (List.range 7).map m'.fs.fat = [0, 0, 0, 2, 3, 4, 5] := by subst hm'; decide +kernel
  have hlen : (header m'.fs.dev 7).length = 32 := by subst hm'; decide +kernel
  have hstart : entryStart m'.fs 7 0 = 6 := by subst hm'; decide +kernel
  have hchain : Linked m'.fs.fat 0 6 [6, 5, 4, 3, 2] := by
    simp only [List.range, List.range.loop, List.map_cons, List.map_nil, List.cons.injEq] at hfat
    simp [Linked, hfat]
  have hfree : Owns m'.fs .free 6 := by
    rw [Owns, hav]
    exact OnChain.head hchain (by decide)
  have hnamed : Owns m'.fs (.entry 7 0) 6 := by
    refine ⟨hroot ▸ .root, by rw [hlen]; decide, ?_⟩
    rw [hstart]
    exact OnChain.head hchain (by decide)
  cases hE.unique _ _ _ hfree hnamed

end

end K439.Fs
