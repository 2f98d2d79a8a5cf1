import K439.Fs.Mount

/-!
# Paths

`Fat439Directory::lookupDirectory(const char**)` looks up every name of the path in the same
directory. What the path leads to is `resolve`: each name is looked up in the directory that was
found before.
-/

namespace K439.Fs

namespace Fat439Directory

variable (fs : Fat439)

/-- The block of the directory `name` in `d`. -/
def resolveName (d : Fat439Directory) (entry : Nat → UInt8) (name : List UInt8) : Option Nat :=
  let idx := lookup fs d entry name
  if idx ≠ 0 ∧ (fs.metaData idx).type = TYPE_DIR then some idx else none

/-- The block that a path leads to from `d`, through directories. -/
def resolve (entry : Nat → UInt8) : Fat439Directory → List (List UInt8) → Option Nat
  | d, [] => some d.start
  | d, name :: path =>
    (resolveName fs d entry name).bind fun idx => resolve entry (create fs idx).1 path

/-- The directory object that a path leads to. -/
def resolveDirectory (entry : Nat → UInt8) :
    Fat439Directory → List (List UInt8) → Option Fat439Directory
  | d, [] => some d
  | d, name :: path =>
    (resolveName fs d entry name).bind fun idx => resolveDirectory entry (create fs idx).1 path

/-- `lookupDirectory(path)` follows the path. -/
def Follows (d : Fat439Directory) (entry : Nat → UInt8) (path : List (List UInt8)) : Prop :=
  ∀ b, (∃ e fs', d.lookupDirectoryPath fs entry path = (some e, fs') ∧ e.start = b) ↔
    resolve fs entry d path = some b

variable {fs} {d : Fat439Directory} {entry : Nat → UInt8} {path : List (List UInt8)}
  {name : List UInt8}
  {idx b : Nat}

theorem resolve_concat : resolve fs entry d (path ++ [name]) =
    (resolveDirectory fs entry d path).bind fun e => resolveName fs e entry name := by
  induction path generalizing d with
  | nil =>
    rw [List.nil_append, resolve, resolveDirectory, Option.bind_some]
    cases resolveName fs d entry name with
    | none => rfl
    | some idx => rfl
  | cons first path ih =>
    rw [List.cons_append, resolve, resolveDirectory, Option.bind_assoc]
    congr 1
    funext idx
    exact ih

/-- Every name is looked up in `d`, and the last one is what is found. -/
theorem lookupPath_concat : d.lookupPath fs entry (path ++ [name]) idx =
    if ∀ n ∈ path, d.lookup fs entry n ≠ 0 then d.lookup fs entry name else 0 := by
  induction path generalizing idx with
  | nil =>
    have hnil : ∀ n ∈ ([] : List (List UInt8)), d.lookup fs entry n ≠ 0 := fun n hn =>
      absurd hn List.not_mem_nil
    rw [List.nil_append, lookupPath, if_pos hnil]
    split
    next h => exact h.symm
    next => rfl
  | cons first path ih =>
    rw [List.cons_append, lookupPath]
    split
    next h => rw [if_neg fun hall => hall first List.mem_cons_self h]
    next h =>
      rw [ih]
      congr 1
      simp [h]

theorem lookupDirectoryPath_start :
    (∃ e fs', d.lookupDirectoryPath fs entry path = (some e, fs') ∧ e.start = b) ↔
    b ≠ 0 ∧ d.lookupPath fs entry path 0 = b := by
  rw [lookupDirectoryPath]
  dsimp only
  split
  next h =>
    rw [h]
    constructor
    · rintro ⟨e, fs', he, -⟩
      cases he
    · rintro ⟨hb, rfl⟩
      exact absurd rfl hb
  next h =>
    constructor
    · rintro ⟨e, fs', he, rfl⟩
      cases he
      exact ⟨h, rfl⟩
    · rintro ⟨-, rfl⟩
      exact ⟨_, _, rfl, rfl⟩

theorem resolveName_eq_some : resolveName fs d entry name = some b ↔
    d.lookup fs entry name = b ∧ b ≠ 0 ∧ (fs.metaData b).type = TYPE_DIR := by
  rw [resolveName]
  constructor
  · intro h
    split at h
    next hd => cases h; exact ⟨rfl, hd⟩
    next => cases h
  · rintro ⟨rfl, h⟩
    rw [if_pos h]

/-- A path of one name is followed unless the name is that of a file. -/
theorem follows_singleton (fs : Fat439) (d : Fat439Directory) (entry : Nat → UInt8)
    (name : List UInt8) :
    Follows fs d entry [name] ↔ d.lookup fs entry name = 0 ∨
      (fs.metaData (d.lookup fs entry name)).type = TYPE_DIR := by
  have hcode (b : Nat) :
      (∃ e fs', d.lookupDirectoryPath fs entry [name] = (some e, fs') ∧ e.start = b) ↔
      b ≠ 0 ∧ d.lookup fs entry name = b := by
    have hpath : d.lookupPath fs entry ([] ++ [name]) 0 = d.lookup fs entry name := by
      rw [lookupPath_concat, if_pos fun n hn => absurd hn List.not_mem_nil]
    rw [lookupDirectoryPath_start, ← List.nil_append [name], hpath]
  have hresolve (b : Nat) : resolve fs entry d [name] = some b ↔
      d.lookup fs entry name = b ∧ b ≠ 0 ∧ (fs.metaData b).type = TYPE_DIR := by
    rw [← List.nil_append [name], resolve_concat, resolveDirectory, Option.bind_some,
      resolveName_eq_some]
  rw [Follows]
  simp only [hcode, hresolve]
  constructor
  · intro h
    rcases Nat.eq_zero_or_pos (d.lookup fs entry name) with h0 | hpos
    · exact .inl h0
    · exact .inr ((h _).mp ⟨Nat.pos_iff_ne_zero.mp hpos, rfl⟩).2.2
  · intro h b
    constructor
    · rintro ⟨hb, rfl⟩
      exact ⟨rfl, hb, h.resolve_left hb⟩
    · rintro ⟨rfl, hb, -⟩
      exact ⟨hb, rfl⟩

/-- The path is followed if and only if its names are all in `d` and it leads to the directory that
its last name has in `d`, or one of its names is not in `d` and it leads nowhere. For a path of one
name this is `follows_singleton`. -/
theorem follows_iff (fs : Fat439) (d : Fat439Directory) (entry : Nat → UInt8)
    (path : List (List UInt8)) (name : List UInt8) : Follows fs d entry (path ++ [name]) ↔
      ((∀ n ∈ path ++ [name], d.lookup fs entry n ≠ 0) ∧ ∃ e,
        resolveDirectory fs entry d path = some e ∧
          e.lookup fs entry name = d.lookup fs entry name ∧
          (fs.metaData (d.lookup fs entry name)).type = TYPE_DIR) ∨
      ((∃ n ∈ path ++ [name], d.lookup fs entry n = 0) ∧ ∀ e,
        resolveDirectory fs entry d path = some e →
          e.lookup fs entry name = 0 ∨ (fs.metaData (e.lookup fs entry name)).type ≠
          TYPE_DIR) := by
  have hresolve : ∀ b, resolve fs entry d (path ++ [name]) = some b ↔ ∃ e,
      resolveDirectory fs entry d path = some e ∧ e.lookup fs entry name = b ∧ b ≠ 0 ∧
        (fs.metaData b).type = TYPE_DIR := by
    intro b
    rw [resolve_concat, Option.bind_eq_some_iff]
    exact exists_congr fun e => and_congr_right fun _ => resolveName_eq_some
  have hcode :
      ∀ b, (∃ e fs', d.lookupDirectoryPath fs entry (path ++ [name]) = (some e, fs') ∧
      e.start = b) ↔
      b ≠ 0 ∧ (∀ n ∈ path, d.lookup fs entry n ≠ 0) ∧ d.lookup fs entry name = b := by
    intro b
    rw [lookupDirectoryPath_start, lookupPath_concat]
    refine and_congr_right fun hb => ?_
    split
    next h => exact ⟨fun he => ⟨h, he⟩, fun he => he.2⟩
    next h => exact ⟨fun he => absurd he.symm hb, fun he => absurd he.1 h⟩
  have hall : (∀ n ∈ path ++ [name], d.lookup fs entry n ≠ 0) ↔
      (∀ n ∈ path, d.lookup fs entry n ≠ 0) ∧ d.lookup fs entry name ≠ 0 := by
    simp [or_imp, forall_and]
  rw [Follows]
  simp only [hresolve, hcode]
  rcases Classical.em (∀ n ∈ path ++ [name], d.lookup fs entry n ≠ 0) with hin | hin
  · -- the code finds the last name in `d`
    obtain ⟨hpath, hname⟩ := hall.mp hin
    constructor
    · intro h
      obtain ⟨e, he, heq, -, htype⟩ := (h (d.lookup fs entry name)).mp ⟨hname, hpath, rfl⟩
      exact .inl ⟨hin, e, he, heq, htype⟩
    · rintro (⟨-, e, he, heq, htype⟩ | ⟨⟨n, hn, h0⟩, -⟩)
      · intro b
        constructor
        · rintro ⟨hb, -, rfl⟩
          exact ⟨e, he, heq, hb, htype⟩
        · rintro ⟨e', he', hb, hb0, -⟩
          obtain rfl : e = e' := Option.some.inj (he.symm.trans he')
          exact ⟨hb0, hpath, heq.symm.trans hb⟩
      · exact absurd h0 (hin n hn)
  · -- the code finds nothing
    have hex : ∃ n ∈ path ++ [name], d.lookup fs entry n = 0 := by
      simpa only [not_forall, not_not, exists_prop] using hin
    have hcode' :
        ∀ b, ¬(b ≠ 0 ∧ (∀ n ∈ path, d.lookup fs entry n ≠ 0) ∧
        d.lookup fs entry name = b) := by
      rintro b ⟨hb, hpath, rfl⟩
      exact hin (hall.mpr ⟨hpath, hb⟩)
    constructor
    · intro h
      refine .inr ⟨hex, fun e he => ?_⟩
      rcases Nat.eq_zero_or_pos (e.lookup fs entry name) with h0 | hpos
      · exact .inl h0
      · exact .inr fun htype =>
          hcode' _ ((h _).mpr ⟨e, he, rfl, Nat.pos_iff_ne_zero.mp hpos, htype⟩)
    · rintro (⟨h, -⟩ | ⟨-, h⟩)
      · exact absurd h hin
      · intro b
        refine ⟨fun hb => absurd hb (hcode' b), ?_⟩
        rintro ⟨e, he, rfl, hb, htype⟩
        rcases h e he with h0 | hne
        · exact absurd h0 hb
        · exact absurd htype hne

/-- `mkdir("b")` in the root directory. -/
def rootMkdirB : Op := .mkdir 0 (fun _ => 0) (fun _ => 0) [0x62]

theorem rootMkdirB_isSome : (byteMount.step rootMkdirB).isSome = true := by decide +kernel

/-- The path "b/b" leads to the directory "b", which is empty. -/
theorem lookupDirectory_again :
    Mounted 8 [byteFile] byteMount ∧ ∃ m', Run Step byteMount [rootMkdirB] m' ∧
    ⟨7, 2⟩ ∈ m'.dirs ∧ ¬Follows m'.fs ⟨7, 2⟩ (fun _ => 0) [[0x62], [0x62]] := by
  obtain ⟨⟨r, m'⟩, hm'⟩ := Option.isSome_iff_exists.mp rootMkdirB_isSome
  have hdirs : (byteMount.step rootMkdirB).map (·.2.dirs) = some [⟨7, 2⟩] := by decide +kernel
  have hpath : (byteMount.step rootMkdirB).map (fun r =>
      lookupPath r.2.fs ⟨7, 2⟩ (fun _ => 0) [[0x62], [0x62]] 0) = some 5 := by decide +kernel
  have hresolve : (byteMount.step rootMkdirB).map (fun r =>
      resolve r.2.fs (fun _ => 0) ⟨7, 2⟩ [[0x62], [0x62]]) = some none := by decide +kernel
  rw [hm', Option.map_some] at hdirs hpath hresolve
  have hd : m'.dirs = [⟨7, 2⟩] := Option.some.inj hdirs
  refine ⟨mounted_byteMount, m', .single ⟨r, hm'⟩, hd ▸ List.mem_singleton_self _,
    fun h => ?_⟩
  have h5 := (h 5).mp (lookupDirectoryPath_start.mpr ⟨by decide, Option.some.inj hpath⟩)
  rw [Option.some.inj hresolve] at h5
  cases h5

end Fat439Directory

end K439.Fs
