import K439.Fs.FileRead

/-!
# Looking a name up

`Fat439Directory::lookup` with the lock of its mutex and the reads of the name (`lookupLogged`): it
finds the first entry with the name in the bytes of the directory, and gives the mutex back
(`lookup_first`). `lookupEntry` is a second loop over the same entries that returns the wrong
variable (`lookupEntry_agrees_iff`).
-/

namespace K439.Fs

/-- What a lookup does to the mutex of the directory and to the name. -/
inductive Event
  | lock
  | unlock
  /-- The byte `i` of the name is read. -/
  | name (i : Nat)
  deriving DecidableEq

abbrev Logged := StateM (List Event)

def event (e : Event) : Logged Unit := modify (· ++ [e])

/-- `name[i]` -/
def nameByte (name : List UInt8) (i : Nat) : Logged UInt8 := do
  event (.name i)
  return name.getD i 0

/-- The inner loop of `lookup` from the byte `i` on: whether it gets to a zero. -/
def compareLogged (entry : Nat → UInt8) (name : List UInt8) : Nat → Nat → Logged Bool
  | 0, _ => return false
  | n + 1, i => do
    let x := entry i
    if x ≠ (← nameByte name i) then return false
    if x = 0 then return true
    compareLogged entry name n (i + 1)

namespace Fat439Directory

variable (fs : Fat439) (d : Fat439Directory)

/-- The outer loop from the entry `i` on. -/
def searchLogged (name : List UInt8) : Nat → Nat → (Nat → UInt8) → Logged Nat
  | 0, _, _ => do
    event .unlock
    return 0
  | n + 1, i, entry => do
    let entry := put entry 0 (OpenFile.readFully fs d.start (w32 (i * 16)) 16)
    if ← compareLogged entry name 12 0 then
      event .unlock
      return word entry 12
    searchLogged name n (i + 1) entry

/-- `lookup`, with what it does to the mutex and to the name. -/
def lookupLogged (entry : Nat → UInt8) (name : List UInt8) : Logged Nat := do
  if (← nameByte name 0) = 0x2e then
    if (← nameByte name 1) = 0 then return d.start
  if (← nameByte name 0) = 0x2e then
    if (← nameByte name 1) = 0x2e then
      if (← nameByte name 2) = 0 then return (fs.metaData d.start).parentDir
  event .lock
  searchLogged fs d name d.entries 0 entry

/-- The local variable `entry` after `n` entries have been read into it. -/
def buffer (entry : Nat → UInt8) : Nat → Nat → UInt8
  | 0 => entry
  | n + 1 => put (buffer entry n) 0 (OpenFile.readFully fs d.start (w32 (n * 16)) 16)

/-- The entry `k` is the first one that has the name. -/
structure Selects (entry : Nat → UInt8) (name : List UInt8) (k : Nat) : Prop where
  lt : k < d.entries
  same : sameName (buffer fs d entry (k + 1)) name 12 0 = true
  first : ∀ j < k, sameName (buffer fs d entry (j + 1)) name 12 0 = false

end Fat439Directory

/-- The name field of the entry `k` of a directory with these bytes. -/
def nameField (c : List UInt8) (k : Nat) : List UInt8 := (c.drop (16 * k)).take 12

/-- The start field of the entry `k`. -/
def startField (c : List UInt8) (k : Nat) : Nat := decodeLE ((c.drop (16 * k + 12)).take 4)

/-- The name field contains a zero, and is the name up to it. -/
def Matches (c name : List UInt8) (k : Nat) : Prop :=
  0 ∈ nameField c k ∧ (nameField c k).takeWhile (· ≠ 0) = name

variable {fs : Fat439} {d : Fat439Directory} {entry : Nat → UInt8} {name c : List UInt8}
  {bs : List Nat}
  {log : List Event} {n i k x : Nat}

/-! ## The log -/

/-- Only bytes of the name are read, at most twelve and none behind the terminating zero. -/
def Reads (name : List UInt8) (l : List Event) : Prop :=
  ∀ e ∈ l, ∃ i < 12, i ≤ name.length ∧ e = .name i

theorem Reads.nil : Reads name [] := fun _ he => absurd he List.not_mem_nil

theorem Reads.append {l l' : List Event} (h : Reads name l) (h' : Reads name l') :
    Reads name (l ++ l') := by
  intro e he
  rcases List.mem_append.mp he with he | he
  · exact h e he
  · exact h' e he

theorem Reads.single (hi : i < 12) (hl : i ≤ name.length) : Reads name [.name i] := by
  intro e he
  exact ⟨i, hi, hl, List.mem_singleton.mp he⟩

theorem nameByte_bind {α : Type} {f : UInt8 → Logged α} :
    (nameByte name i >>= f).run log = (f (name.getD i 0)).run (log ++ [.name i]) := rfl

theorem run_bind {α β : Type} {m : Logged α} {f : α → Logged β} {a : α} {log' : List Event}
    (h : m.run log = (a, log')) : (m >>= f).run log = (f a).run log' := by
  rw [StateT.run_bind, h]
  rfl

theorem event_bind {α : Type} {e : Event} {f : Unit → Logged α} :
    (event e >>= f).run log = (f ()).run (log ++ [e]) := rfl

theorem compareLogged_run (entry : Nat → UInt8) (log : List Event) (hn : i + n ≤ 12)
    (hi : i ≤ name.length) : ∃ l, (compareLogged entry name n i).run log =
    (sameName entry name n i, log ++ l) ∧ Reads name l := by
  induction n generalizing i log with
  | zero => exact ⟨[], by rw [List.append_nil]; rfl, .nil⟩
  | succ n ih =>
    have hread : Reads name [.name i] := .single (by omega) hi
    rw [compareLogged, sameName, nameByte_bind]
    split
    · exact ⟨_, rfl, hread⟩
    next heq =>
      split
      · exact ⟨_, rfl, hread⟩
      next h0 =>
        have hlt : i < name.length := by
          by_contra hge
          rw [not_not, List.getD_eq_default _ _ (Nat.le_of_not_lt hge)] at heq
          exact h0 heq
        obtain ⟨l, hl, hr⟩ := ih (log ++ [.name i]) (show i + 1 + n ≤ 12 by omega) (by omega)
        exact ⟨.name i :: l, by rw [hl, List.append_assoc]; rfl, hread.append hr⟩

namespace Fat439Directory

theorem searchLogged_run (fs : Fat439) (d : Fat439Directory) (name : List UInt8) (n i : Nat)
    (entry : Nat → UInt8) (log : List Event) : ∃ l, (searchLogged fs d name n i entry).run log =
    (((search fs d name n i entry).map (·.2)).getD 0, log ++ (l ++ [.unlock])) ∧
    Reads name l := by
  induction n generalizing i entry log with
  | zero => exact ⟨[], rfl, .nil⟩
  | succ n ih =>
    obtain ⟨l, hl, hr⟩ :=
      compareLogged_run (put entry 0 (OpenFile.readFully fs d.start (w32 (i * 16)) 16)) log
      (show 0 + 12 ≤ 12 by omega) (Nat.zero_le name.length)
    rw [searchLogged, search]
    rw [run_bind hl]
    split
    next hs => exact ⟨l, by rw [event_bind, List.append_assoc]; rfl, hr⟩
    next hs =>
      obtain ⟨l', hl', hr'⟩ := ih (i + 1)
        (put entry 0 (OpenFile.readFully fs d.start (w32 (i * 16)) 16)) (log ++ l)
      refine ⟨l ++ l', ?_, hr.append hr'⟩
      rw [hl', List.append_assoc, List.append_assoc]

theorem locked_run (hdot : name ≠ [0x2e]) (hdots : name ≠ [0x2e, 0x2e])
    (hlog : Reads name log) :
    ∃ l₁ l₂, (event .lock >>= fun _ => searchLogged fs d name d.entries 0 entry).run log =
      (d.lookup fs entry name, l₁ ++ .lock :: (l₂ ++ [.unlock])) ∧ Reads name l₁ ∧
      Reads name l₂ := by
  obtain ⟨l, hl, hr⟩ := searchLogged_run fs d name d.entries 0 entry (log ++ [.lock])
  refine ⟨log, l, ?_, hlog, hr⟩
  rw [event_bind, hl, lookup, if_neg hdot, if_neg hdots, List.append_assoc]
  rfl

/-- `lookup` locks the mutex once, gives it back at the end, and reads the name and nothing behind
it. -/
theorem lookupLogged_run (fs : Fat439) (d : Fat439Directory) (entry : Nat → UInt8)
    (hz : 0 ∉ name) (hdot : name ≠ [0x2e]) (hdots : name ≠ [0x2e, 0x2e]) :
    ∃ l₁ l₂, (d.lookupLogged fs entry name).run [] =
      (d.lookup fs entry name, l₁ ++ .lock :: (l₂ ++ [.unlock])) ∧ Reads name l₁ ∧
      Reads name l₂ := by
  have h0 : Reads name [.name 0] := .single (by omega) (Nat.zero_le _)
  cases name with
  | nil =>
    rw [lookupLogged, nameByte_bind, if_neg (by simp)]
    dsimp only
    rw [nameByte_bind, if_neg (by simp)]
    exact locked_run hdot hdots (h0.append h0)
  | cons a rest =>
    have h1 : Reads (a :: rest) [.name 1] := .single (by omega) (by simp)
    rw [lookupLogged, nameByte_bind, List.getD_cons_zero]
    dsimp only
    by_cases ha : a = 0x2e
    · subst ha
      cases rest with
      | nil => exact absurd rfl hdot
      | cons b rest =>
        have hb : b ≠ 0 := fun he => hz (by simp [he])
        rw [if_pos rfl, nameByte_bind, List.getD_cons_succ, List.getD_cons_zero, if_neg hb,
          nameByte_bind,
          List.getD_cons_zero, if_pos rfl, nameByte_bind, List.getD_cons_succ, List.getD_cons_zero]
        by_cases hb' : b = 0x2e
        · subst hb'
          cases rest with
          | nil => exact absurd rfl hdots
          | cons e rest =>
            have he : e ≠ 0 := fun he => hz (by simp [he])
            have h2 : Reads (0x2e :: 0x2e :: e :: rest) [.name 2] := .single (by omega) (by simp)
            rw [if_pos rfl, nameByte_bind, List.getD_cons_succ, List.getD_cons_succ,
              List.getD_cons_zero, if_neg he]
            exact locked_run hdot hdots ((((h0.append h1).append h0).append h1).append h2)
        · rw [if_neg hb']
          exact locked_run hdot hdots (((h0.append h1).append h0).append h1)
    · rw [if_neg ha, nameByte_bind, List.getD_cons_zero, if_neg ha]
      exact locked_run hdot hdots (h0.append h0)

end Fat439Directory

/-! ## The entries -/

/-- The comparison of a name with the bytes `l` of a name field, from the byte `i` on. -/
theorem sameName_takeWhile (entry : Nat → UInt8) {l : List UInt8} (hz : 0 ∉ name)
    (hi : i ≤ name.length) (he : ∀ o (ho : o < l.length), entry (i + o) = l[o]) :
    sameName entry name l.length i = true ↔ 0 ∈ l ∧ l.takeWhile (· ≠ 0) = name.drop i := by
  induction l generalizing i with
  | nil => simp [sameName]
  | cons x l ih =>
    have hx : entry i = x := he 0 (by simp)
    have hrest : ∀ o (ho : o < l.length), entry (i + 1 + o) = l[o] := fun o ho => by
      have := he (o + 1) (by simpa using ho)
      rwa [← Nat.add_assoc, Nat.add_right_comm, List.getElem_cons_succ] at this
    rw [List.length_cons, sameName]
    simp only [hx]
    rcases Nat.lt_or_eq_of_le hi with hlt | hlen
    · have hget : name.getD i 0 = name[i] := List.getD_eq_getElem _ _ hlt
      have hne : name[i] ≠ 0 := fun h0 => hz (h0 ▸ List.getElem_mem hlt)
      rw [List.drop_eq_getElem_cons hlt, hget]
      by_cases hxn : x = name[i]
      · have hx0 : x ≠ 0 := hxn ▸ hne
        rw [if_neg (fun h => h hxn), if_neg hx0, ih hlt hrest,
          List.takeWhile_cons_of_pos (by simpa using hx0), hxn, List.cons.injEq]
        simp [Ne.symm hne]
      · rw [if_pos hxn]
        refine iff_of_false (by simp) ?_
        rintro ⟨-, htake⟩
        rw [List.takeWhile_cons] at htake
        split at htake
        · exact hxn (List.cons.inj htake).1
        · cases htake
    · rw [List.getD_eq_default _ _ (Nat.le_of_eq hlen.symm),
        List.drop_of_length_le (Nat.le_of_eq hlen.symm)]
      by_cases hx0 : x = 0
      · rw [if_neg (fun h => h hx0), if_pos hx0]
        exact iff_of_true rfl ⟨by simp [hx0], List.takeWhile_cons_of_neg (by simp [hx0])⟩
      · rw [if_pos hx0]
        refine iff_of_false (by simp) ?_
        rintro ⟨-, htake⟩
        rw [List.takeWhile_cons_of_pos (by simpa using hx0)] at htake
        cases htake

namespace Fat439Directory

/-- The search, in terms of what is read into `entry`. -/
theorem search_buffer (fs : Fat439) (d : Fat439Directory) (entry : Nat → UInt8)
    (name : List UInt8) (n i : Nat) : search fs d name n i (buffer fs d entry i) =
    ((List.range' i n).find? fun j => sameName (buffer fs d entry (j + 1)) name 12 0).map fun j =>
    (j, word (buffer fs d entry (j + 1)) 12) := by
  induction n generalizing i with
  | zero => rfl
  | succ n ih =>
    rw [search, List.range'_succ, List.find?_cons]
    change (if sameName (buffer fs d entry (i + 1)) name 12 0 then _
      else search fs d name n (i + 1) _) = _
    split
    next hs => rw [hs]; rfl
    next hs =>
      rw [Bool.not_eq_true] at hs
      rw [hs, ← ih]
      rfl

theorem search_selects : search fs d name d.entries 0 entry = some (k, x) ↔
    d.Selects fs entry name k ∧ x = word (buffer fs d entry (k + 1)) 12 := by
  have hs := search_buffer fs d entry name d.entries 0
  rw [buffer] at hs
  rw [hs, Option.map_eq_some_iff]
  constructor
  · rintro ⟨j, hj, he⟩
    cases he
    obtain ⟨hsame, hmem, hfirst⟩ := List.find?_range'_eq_some.mp hj
    refine ⟨⟨by simpa using hmem, hsame, fun j' hj' => ?_⟩, rfl⟩
    simpa using hfirst j' (Nat.zero_le _) hj'
  · rintro ⟨S, rfl⟩
    refine ⟨k, List.find?_range'_eq_some.mpr ⟨S.same, by simpa using S.lt, fun j _ hj => ?_⟩,
      rfl⟩
    simpa using S.first j hj

end Fat439Directory

/-! ## The bytes of a directory -/

/-- The chain of blocks `bs` holds the header and the bytes of the directory. -/
structure Chain (fs : Fat439) (s : Nat) (bs : List Nat) : Prop where
  linked : Linked fs.fat 0 s bs
  le : 16 + (fs.metaData s).length ≤ 512 * bs.length
  lt : ∀ x ∈ bs, x * 512 < 0x100000000

/-- Distinct blocks with addresses below `2 ^ 32` hold fewer than `2 ^ 32` bytes. -/
theorem Chain.length_lt {s : Nat} (C : Chain fs s bs) :
    16 + (fs.metaData s).length < 0x100000000 := by
  have hmem : bs ⊆ (List.range' 1 0x7fffff) := by
    intro x hx
    have hne : x ≠ 0 := C.linked.ne_nil hx
    have hlt := C.lt x hx
    rw [List.mem_range'_1]
    omega
  have hlen := (List.subperm_of_subset C.linked.nodup hmem).length_le
  rw [List.length_range'] at hlen
  have := C.le
  omega

/-- An entry is read as it is in the bytes of the directory. -/
theorem Chain.readFully {s : Nat} (C : Chain fs s bs) (hi : i < (fs.metaData s).length / 16) :
    OpenFile.readFully fs s (w32 (i * 16)) 16 = ((contents fs s bs).drop (16 * i)).take 16 := by
  have hlt := C.length_lt
  have hlen : (contents fs s bs).length = (fs.metaData s).length := slice_length
  have hread : OpenFile.read fs s (i * 16) 16 = .ok (((contents fs s bs).drop (i * 16)).take
      (min (min 16 ((contents fs s bs).length - i * 16)) (512 - (i * 16 + 16) % 512))) :=
    OpenFile.read_contents (by rw [hlen, contents]) C.linked (by rw [hlen]; exact C.le)
      (fun x hx => by have := C.lt x hx; omega) hlen.symm (by rw [hlen]; omega)
        (by rw [hlen]; omega)
  rw [hlen, show min (min 16 ((fs.metaData s).length - i * 16)) (512 - (i * 16 + 16) % 512) =
    16 by omega] at hread
  have htake : (((contents fs s bs).drop (i * 16)).take 16).length = 16 := by
    rw [List.length_take, List.length_drop, hlen]
    omega
  rw [w32_of_lt (by omega), OpenFile.readFully, OpenFile.readFullyLoop, if_pos (by omega), hread]
  dsimp only
  rw [htake, if_neg (by omega), OpenFile.readFullyLoop, if_neg (by omega), List.append_nil,
    Nat.mul_comm i]

namespace Fat439Directory

variable (C : Chain fs d.start bs)
include C

theorem buffer_contents {o : Nat} (hi : i < (fs.metaData d.start).length / 16) (ho : o < 16) :
    buffer fs d entry (i + 1) o = (contents fs d.start bs).getD (16 * i + o) 0 := by
  have hlen : (contents fs d.start bs).length = (fs.metaData d.start).length := slice_length
  have hrange : 16 * i + o < (contents fs d.start bs).length := by omega
  have htake : o < (((contents fs d.start bs).drop (16 * i)).take 16).length := by
    rw [List.length_take, List.length_drop]
    omega
  rw [buffer, C.readFully hi]
  have hput := put_add (m := buffer fs d entry i) (a := 0) htake
  rw [Nat.zero_add] at hput
  rw [hput, List.getElem_take, List.getElem_drop, List.getD_eq_getElem _ _ hrange]

theorem sameName_matches (hz : 0 ∉ name) (hi : i < (fs.metaData d.start).length / 16) :
    sameName (buffer fs d entry (i + 1)) name 12 0 = true ↔
    Matches (contents fs d.start bs) name i := by
  have hlen : (contents fs d.start bs).length = (fs.metaData d.start).length := slice_length
  have hfield : (nameField (contents fs d.start bs) i).length = 12 := by
    rw [nameField, List.length_take, List.length_drop]
    omega
  have hsame := sameName_takeWhile (buffer fs d entry (i + 1)) hz (Nat.zero_le _)
    fun o (ho : o < (nameField (contents fs d.start bs) i).length) => by
      rw [Nat.zero_add, buffer_contents C hi (by omega)]
      simp only [nameField, List.getElem_take, List.getElem_drop]
      exact List.getD_eq_getElem _ _ (by omega)
  rw [hfield] at hsame
  exact hsame

theorem word_startField (hi : i < (fs.metaData d.start).length / 16) :
    word (buffer fs d entry (i + 1)) 12 = startField (contents fs d.start bs) i := by
  have hlen : (contents fs d.start bs).length = (fs.metaData d.start).length := slice_length
  rw [word, startField]
  congr 1
  refine List.ext_getElem ?_ fun j hj hj' => ?_
  · rw [slice_length, List.length_take, List.length_drop]
    omega
  · rw [slice_length] at hj
    rw [getElem_slice, buffer_contents C hi (by omega), List.getElem_take, List.getElem_drop,
      List.getD_eq_getElem _ _ (by omega)]
    simp only [Nat.add_assoc]

end Fat439Directory

/-- **`lookup` finds the first match.** In a directory whose chain covers its length, with the entry
count up to date: the start field of the first entry whose name field contains a zero and is the
name up to it, or 0. At most twelve bytes of the name are read, and the mutex is locked once and
unlocked at the end. -/
theorem lookup_first (C : Chain fs d.start bs)
    (hent : d.entries = (fs.metaData d.start).length / 16) (hz : 0 ∉ name)
    (hdot : name ≠ [0x2e]) (hdots : name ≠ [0x2e, 0x2e]) (entry : Nat → UInt8) :
    ∃ r l₁ l₂, (d.lookupLogged fs entry name).run [] =
    (r, l₁ ++ .lock :: (l₂ ++ [.unlock])) ∧
      Reads name l₁ ∧ Reads name l₂ ∧
      (∀ k < d.entries, Matches (contents fs d.start bs) name k →
        (∀ j < k, ¬Matches (contents fs d.start bs) name j) →
        r = startField (contents fs d.start bs) k) ∧
      ((∀ k < d.entries, ¬Matches (contents fs d.start bs) name k) → r = 0) := by
  obtain ⟨l₁, l₂, hrun, h1, h2⟩ :=
    Fat439Directory.lookupLogged_run fs d entry hz hdot hdots
  have hmatches (k : Nat) (hk : k < d.entries) :
      sameName (d.buffer fs entry (k + 1)) name 12 0 = true ↔
        Matches (contents fs d.start bs) name k :=
    Fat439Directory.sameName_matches C hz (by omega)
  refine ⟨_, l₁, l₂, hrun, h1, h2, fun k hk hm hfirst => ?_, fun hnone => ?_⟩
  · have hS : d.Selects fs entry name k := by
      refine ⟨hk, (hmatches k hk).mpr hm, fun j hj => ?_⟩
      rw [← Bool.not_eq_true, hmatches j (by omega)]
      exact hfirst j hj
    have hsearch := Fat439Directory.search_selects.mpr ⟨hS, rfl⟩
    rw [Fat439Directory.lookup, if_neg hdot, if_neg hdots, hsearch]
    exact Fat439Directory.word_startField C (by omega)
  · cases hs : Fat439Directory.search fs d name d.entries 0 entry with
    | none =>
      rw [Fat439Directory.lookup, if_neg hdot, if_neg hdots, hs]
      rfl
    | some r =>
      obtain ⟨hS, -⟩ := Fat439Directory.search_selects.mp hs
      exact absurd ((hmatches _ hS.lt).mp hS.same) (hnone _ hS.lt)

theorem abcMount_chain : Chain abcMount.fs 7 [7] :=
  ⟨by simp only [Linked]; decide, by decide, by decide⟩

/-- The second of three entries. -/
theorem lookup_first_abcMount :
    ((Fat439Directory.lookupLogged abcMount.fs ⟨7, 3⟩ (fun _ => 0) [0x62]).run []).1 = 5 := by
  obtain ⟨r, l₁, l₂, hrun, -, -, hfirst, -⟩ := lookup_first (d := ⟨7, 3⟩) abcMount_chain
    (by decide) (show 0 ∉ [0x62] by decide) (by decide) (by decide) (fun _ => 0)
  rw [hrun]
  refine (hfirst 1 (by decide) ⟨by decide, by decide⟩ fun j hj h => ?_).trans ?_
  · obtain rfl := Nat.lt_one_iff.mp hj
    exact absurd h.2 (by decide)
  · decide

/-! ## `lookupEntry` -/

/-- What `lookupEntry` is to be: -1 when no entry has the name, and else the index of the entry
whose start field `lookup` returns. -/
structure EntryAgrees (fs : Fat439) (d : Fat439Directory) (entry : Nat → UInt8)
    (name : List UInt8) : Prop where
  none_iff : d.lookupEntry fs entry name = -1 ↔ ∀ k, ¬d.Selects fs entry name k
  index : ∀ k, d.Selects fs entry name k → d.lookupEntry fs entry name = k ∧
    d.lookup fs entry name = word (d.buffer fs entry (k + 1)) 12

theorem idxOf_zero (hz : 0 ∉ name) : name.idxOf 0 = name.length :=
  List.idxOf_eq_length hz

/-- **`lookupEntry` returns the length of the name.** It agrees with `lookup` exactly when no entry
has the name, or the first one that has it is at the index that is the length of the name. -/
theorem lookupEntry_agrees_iff (fs : Fat439) (d : Fat439Directory) (entry : Nat → UInt8)
    (hz : 0 ∉ name) (hdot : name ≠ [0x2e]) (hdots : name ≠ [0x2e, 0x2e]) :
    EntryAgrees fs d entry name ↔ ∀ k, d.Selects fs entry name k → k = name.length := by
  have hsome (k : Nat) (S : d.Selects fs entry name k) :
      d.lookupEntry fs entry name = name.length := by
    rw [Fat439Directory.lookupEntry, if_neg hdot, if_neg hdots,
      Fat439Directory.search_selects.mpr ⟨S, rfl⟩,
      Option.map_some, Option.getD_some, idxOf_zero hz]
  have hnone (hno : ∀ k, ¬d.Selects fs entry name k) : d.lookupEntry fs entry name = -1 := by
    rw [Fat439Directory.lookupEntry, if_neg hdot, if_neg hdots]
    cases hs : Fat439Directory.search fs d name d.entries 0 entry with
    | none => rfl
    | some r => exact absurd (Fat439Directory.search_selects.mp hs).1 (hno _)
  constructor
  · intro A k S
    have hk := (A.index k S).1
    rw [hsome k S] at hk
    omega
  · intro hall
    refine ⟨⟨fun hm k S => ?_, hnone⟩, fun k S => ⟨?_, ?_⟩⟩
    · have := hsome k S
      omega
    · rw [hsome k S, hall k S]
    · rw [Fat439Directory.lookup, if_neg hdot, if_neg hdots,
        Fat439Directory.search_selects.mpr ⟨S, rfl⟩]
      rfl

/-- In the image with the one file "a" the name "b" is not there. -/
theorem lookupEntry_agrees_byteMount : EntryAgrees byteMount.fs ⟨7, 1⟩ (fun _ => 0) [0x62] := by
  refine (lookupEntry_agrees_iff _ _ _ (by decide) (by decide) (by decide)).mpr fun k S => ?_
  obtain rfl : k = 0 := by
    have := S.lt
    dsimp only at this
    omega
  exact absurd S.same (by decide)

/-- "a" is at the index 0, and `lookupEntry` returns 1. -/
theorem lookupEntry_disagrees :
    ¬∀ (n : Nat) (files : List HostFile) (m : Mount), Mounted n files m →
    ∀ d ∈ m.dirs, ∀ entry name, 0 ∉ name → name ≠ [0x2e] → name ≠ [0x2e, 0x2e] →
    EntryAgrees m.fs d entry name := by
  intro hall
  have A := hall 8 [byteFile] byteMount mounted_byteMount ⟨7, 1⟩ (by decide) (fun _ => 0) [0x61]
      (by decide)
    (by decide) (by decide)
  have hindex := (A.index 0 ⟨by decide, by decide, fun j hj => absurd hj (Nat.not_lt_zero j)⟩).1
  exact absurd hindex (by decide)

end K439.Fs
