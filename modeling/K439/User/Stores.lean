import K439.Fs.FileRead
import K439.User.Memory

/-!
# Stores through addresses of the user

The `read` system call stores at the buffer that the user names, and `execv` at the addresses in the
program headers of a file. Neither looks at the address, so the stores are in the user half exactly
when the address is not one that the kernel is mapped at; any other address is a fault at its first
byte.
-/

namespace K439.User

open Fs

abbrev Log := List (Nat × UInt8)

/-- The stores are in the user half, and what is below it stays as it is. -/
def UserOnly (log : Log) : Prop :=
  (∀ w ∈ log, 0x80000000 ≤ w.1 ∧ w.1 < 0x100000000) ∧
    ∀ (mem : Mem) (x : Nat), x < 0x80000000 → mem.after log x = mem x

/-- Where the kernel and its heap are. -/
def InKernel (limit a : Nat) : Prop := 0x1000 ≤ a ∧ a < limit

/-- The system call `read(id, buf, len)`; `file` is what `get` finds for the `id`. -/
def sysRead (limit : Nat) (fs : Fat439) (file : Option Fat439File) (buf len : Nat) :
    Log × Option Fault :=
  match file with
  | none => ([], none)
  | some f =>
    match (f.read fs len).1 with
    | .error _ => ([], none)
    | .ok bytes => stores limit buf bytes

structure Elf32_Ehdr where
  e_phoff : Nat
  e_phentsize : Nat
  e_phnum : Nat

def Elf32_Ehdr.ofBytes (l : List UInt8) : Elf32_Ehdr where
  e_phoff := decodeLE ((l.drop 28).take 4)
  e_phentsize := decodeLE ((l.drop 42).take 2)
  e_phnum := decodeLE ((l.drop 44).take 2)

structure Elf32_Phdr where
  p_type : Nat
  p_offset : Nat
  p_vaddr : Nat
  p_filesz : Nat
  deriving DecidableEq

def Elf32_Phdr.ofBytes (l : List UInt8) : Elf32_Phdr where
  p_type := decodeLE (l.take 4)
  p_offset := decodeLE ((l.drop 4).take 4)
  p_vaddr := decodeLE ((l.drop 8).take 4)
  p_filesz := decodeLE ((l.drop 16).take 4)

def PT_LOAD : Nat := 1

/-- A variable on the stack after `bytes` were read into it. -/
def fill (old bytes : List UInt8) : List UInt8 := bytes ++ old.drop bytes.length

/-- The loop over the program headers: `n` headers from the number `i` on, which is at `hoff`. What
is on the stack where the header is read is `phdrs i`. -/
def loadLoop (limit : Nat) (fs : Fat439) (hdr : Elf32_Ehdr) (phdrs : Nat → List UInt8) :
    Nat → Nat → Nat → Fat439File → Option (Log × Option Fault)
  | 0, _, _, _ => some ([], none)
  | n + 1, i, hoff, prog => do
    let (_, bytes, prog) ← (prog.seek hoff).readFully fs 32
    let phdr := Elf32_Phdr.ofBytes (fill (phdrs i) bytes)
    let hoff := w32 (hoff + hdr.e_phentsize)
    if phdr.p_type = PT_LOAD then
      let (_, bytes, prog) ← (prog.seek phdr.p_offset).readFully fs phdr.p_filesz
      match stores limit phdr.p_vaddr bytes with
      | (log, some e) => some (log, some e)
      | (log, none) => do
        let (rest, e) ← loadLoop limit fs hdr phdrs n (i + 1) hoff prog
        some (log ++ rest, e)
    else loadLoop limit fs hdr phdrs n (i + 1) hoff prog

/-- `execv` from `prog->seek(0)` to `switchToUser`; `hdr` and `phdrs` are what is on the stack. -/
def load (limit : Nat) (fs : Fat439) (prog : Fat439File) (hdr : List UInt8)
    (phdrs : Nat → List UInt8) :
    Option (Log × Option Fault) := do
  let (_, bytes, prog) ← (prog.seek 0).readFully fs 52
  let hdr := Elf32_Ehdr.ofBytes (fill hdr bytes)
  loadLoop limit fs hdr phdrs hdr.e_phnum 0 hdr.e_phoff prog

/-! ## The stores of one copy -/

section

variable {limit a : Nat} {bytes : List UInt8} {log : Log}

theorem userOnly_of_forall (h : ∀ w ∈ log, 0x80000000 ≤ w.1 ∧ w.1 < 0x100000000) :
    UserOnly log := by
  refine ⟨h, fun mem x hx => ?_⟩
  induction log generalizing mem with
  | nil => rfl
  | cons w log ih =>
    have hw := (h w List.mem_cons_self).1
    rw [Mem.after, List.foldl_cons]
    have hrest := ih (fun v hv => h v (List.mem_cons_of_mem w hv)) (Function.update mem w.1 w.2)
    rw [Mem.after] at hrest
    rw [hrest, Function.update_of_ne (by omega)]

theorem userOnly_append {log' : Log} :
    UserOnly (log ++ log') ↔ UserOnly log ∧ UserOnly log' := by
  constructor
  · intro h
    exact ⟨userOnly_of_forall fun w hw => h.1 w (List.mem_append_left _ hw),
      userOnly_of_forall fun w hw => h.1 w (List.mem_append_right _ hw)⟩
  · intro h
    refine userOnly_of_forall fun w hw => ?_
    rcases List.mem_append.mp hw with hw | hw
    · exact h.1.1 w hw
    · exact h.2.1 w hw

theorem userOnly_nil : UserOnly [] := userOnly_of_forall fun _ h => absurd h List.not_mem_nil

/-- At an address that is not mapped nothing is stored. -/
theorem stores_fault {e : Fault} (h : fault limit a = some e) : (stores limit a bytes).1 = [] := by
  cases bytes with
  | nil => rfl
  | cons b bytes => rw [stores, h]

/-- In the user half a copy goes on to the end of the address space. -/
theorem stores_user (h : 0x80000000 ≤ a) (hlt : a < 0x100000000) :
    ∀ w ∈ (stores limit a bytes).1, 0x80000000 ≤ w.1 ∧ w.1 < 0x100000000 := by
  induction bytes generalizing a with
  | nil => exact fun _ h => absurd h List.not_mem_nil
  | cons b bytes ih =>
    simp only [stores, fault_user h]
    intro w hw
    rcases List.mem_cons.mp hw with rfl | hw
    · exact ⟨h, hlt⟩
    · rcases Nat.lt_or_ge (a + 1) 0x100000000 with hlt' | hge
      · rw [w32_of_lt hlt'] at hw
        exact ih (by omega) hlt' w hw
      · have hwrap : w32 (a + 1) = 0 := by rw [w32, show a + 1 = 0x100000000 by omega]
        rw [hwrap, stores_fault (show fault limit 0 = some .killed from rfl)] at hw
        exact absurd hw List.not_mem_nil

theorem fault_ne_none (hk : ¬InKernel limit a) (h : a < 0x80000000) :
    ∃ e, fault limit a = some e := by
  rw [fault]
  rcases Nat.lt_or_ge a 0x1000 with h1 | h1
  · exact ⟨_, if_pos h1⟩
  · rw [if_neg (by omega), if_neg fun h' => h'.elim (fun h' => hk ⟨h1, h'⟩) (by omega)]
    exact ⟨_, rfl⟩

theorem userOnly_stores_iff (hlimit : limit ≤ 0x80000000) (hlt : a < 0x100000000) :
    UserOnly (stores limit a bytes).1 ↔ ¬(bytes ≠ [] ∧ InKernel limit a) := by
  constructor
  · rintro h ⟨hne, hk⟩
    obtain ⟨b, bytes, rfl⟩ := List.exists_cons_of_ne_nil hne
    have hnone : fault limit a = none := by
      rw [fault, if_neg (Nat.not_lt.mpr hk.1), if_pos (.inl hk.2)]
    have hw := h.1 (a, b) (by simp [stores, hnone])
    exact absurd hk.2 (by omega)
  · intro h
    rcases bytes.eq_nil_or_concat with rfl | ⟨l, b, rfl⟩
    · exact userOnly_nil
    have hk : ¬InKernel limit a := fun hk => h ⟨by simp, hk⟩
    rcases Nat.lt_or_ge a 0x80000000 with hlow | hhigh
    · obtain ⟨e, he⟩ := fault_ne_none hk hlow
      rw [stores_fault he]
      exact userOnly_nil
    · exact userOnly_of_forall (stores_user hhigh hlt)

theorem stores_user_none_iff (h : 0x80000000 ≤ a) (hlt : a < 0x100000000) :
    (stores limit a bytes).2 = none ↔ a + bytes.length ≤ 0x100000000 := by
  induction bytes generalizing a with
  | nil => exact iff_of_true rfl (Nat.le_of_lt hlt)
  | cons b bytes ih =>
    simp only [stores, fault_user h, List.length_cons]
    rcases Nat.lt_or_ge (a + 1) 0x100000000 with hlt' | hge
    · rw [w32_of_lt hlt', ih (by omega) hlt']
      omega
    · have hwrap : w32 (a + 1) = 0 := by rw [w32, show a + 1 = 0x100000000 by omega]
      rw [hwrap]
      cases bytes with
      | nil => exact iff_of_true rfl (by simp; omega)
      | cons c bytes =>
        have hkill : fault limit 0 = some .killed := rfl
        simp only [stores, hkill, List.length_cons, reduceCtorEq, false_iff]
        omega

/-- A copy that leaves the kernel alone goes on to its end exactly when it fits into the user
half. -/
theorem stores_none_iff (hlt : a < 0x100000000) (hk : bytes ≠ [] → ¬InKernel limit a) :
    (stores limit a bytes).2 = none ↔ bytes = [] ∨ 0x80000000 ≤ a ∧
    a + bytes.length ≤ 0x100000000 := by
  rcases bytes with _ | ⟨b, bytes⟩
  · exact iff_of_true rfl (.inl rfl)
  rcases Nat.lt_or_ge a 0x80000000 with hlow | hhigh
  · obtain ⟨e, he⟩ := fault_ne_none (hk (List.cons_ne_nil b bytes)) hlow
    simp only [stores, he, reduceCtorEq, false_or, false_iff]
    omega
  · rw [stores_user_none_iff hhigh hlt]
    simp only [reduceCtorEq, false_or]
    exact (and_iff_right hhigh).symm

end

/-! ## What is read -/

section

variable {fs : Fat439} {f : Fat439File} {n fuel togo length : Nat}

/-- A read gives at least one byte of what is left, whatever the chain of the file is. -/
theorem read_length (hlen : (fs.metaData f.openFile).length < 0x100000000)
    (ho : f.offset ≤ (fs.metaData f.openFile).length) : ∃ bytes m, f.read fs n =
      (.ok bytes, { f with offset := f.offset + m }) ∧ bytes.length = m ∧
      m ≤ min n ((fs.metaData f.openFile).length - f.offset) ∧
      (m = 0 → min n ((fs.metaData f.openFile).length - f.offset) = 0) := by
  rw [Fat439File.read, OpenFile.read, if_neg (Nat.not_lt.mpr ho)]
  dsimp only
  rw [BlockDevice.read_eq]
  generalize fs.fat^[_] _ = blk
  generalize w32 (blk * 512 + w32 (f.offset + 16) % 512) = o
  have hmod := Nat.mod_lt o (show 512 > 0 by simp)
  generalize hm : min (min n ((fs.metaData f.openFile).length - f.offset)) (512 - o % 512) = m
  refine ⟨slice fs.dev o m, m, ?_, slice_length, by omega, by omega⟩
  rw [slice_length, w32_of_lt (by omega)]

theorem read_tooLong (ho : (fs.metaData f.openFile).length < f.offset) :
    f.read fs n = (.error ERR_TOO_LONG, f) := by
  rw [Fat439File.read, OpenFile.read, if_pos ho]

theorem readFullyLoop_length (hlen : (fs.metaData f.openFile).length < 0x100000000)
    (hf : togo < fuel) :
    ∃ code bytes o, f.readFullyLoop fs length fuel togo =
    some (code, bytes, { f with offset := o }) ∧
      bytes.length = min togo ((fs.metaData f.openFile).length - f.offset) := by
  induction fuel generalizing f togo with
  | zero => exact absurd hf (Nat.not_lt_zero _)
  | succ fuel ih =>
    rw [Fat439File.readFullyLoop]
    rcases Nat.eq_zero_or_pos togo with rfl | hpos
    · rw [if_neg (Nat.lt_irrefl 0), Nat.zero_min]
      exact ⟨_, [], f.offset, rfl, rfl⟩
    rw [if_pos hpos]
    rcases Nat.lt_or_ge (fs.metaData f.openFile).length f.offset with hlt | hle
    · rw [read_tooLong hlt]
      exact ⟨_, [], f.offset, rfl, by rw [List.length_nil]; omega⟩
    obtain ⟨bytes, m, hread, hm, hle', hzero⟩ := read_length (n := togo) hlen hle
    rw [hread]
    dsimp only
    rw [hm]
    split
    next h0 => exact ⟨_, [], f.offset + m, rfl, by rw [List.length_nil, hzero h0]⟩
    next h0 =>
      obtain ⟨code, rest, o, hrest, hlen'⟩ :=
        @ih { f with offset := f.offset + m } (togo - m) hlen (by omega)
      rw [hrest]
      refine ⟨code, bytes ++ rest, o, rfl, ?_⟩
      rw [List.length_append, hm, hlen']
      dsimp only
      omega

/-- `readFully` from an offset gives as many bytes as there are. -/
theorem readFully_seek (hlen : (fs.metaData f.openFile).length < 0x100000000) (o n : Nat) :
    ∃ code bytes o', (f.seek o).readFully fs n = some (code, bytes, { f with offset := o' }) ∧
      bytes.length = min n ((fs.metaData f.openFile).length - o) :=
  readFullyLoop_length (f := f.seek o) hlen (Nat.lt_succ_self n)

end

/-! ## Which stores are in the user half -/

/-- The bytes of the file from an offset on. -/
def bytesAt (fs : Fat439) (start o n : Nat) : List UInt8 :=
  ((Fat439File.readFully fs ⟨start, o⟩ n).map (·.2.1)).getD []

/-- The program header at `hoff`, read over what was on the stack. -/
def phdrAt (fs : Fat439) (start : Nat) (old : List UInt8) (hoff : Nat) : Elf32_Phdr :=
  .ofBytes (fill old (bytesAt fs start hoff 32))

/-- The program headers in their order. -/
def phdrsFrom (fs : Fat439) (start : Nat) (hdr : Elf32_Ehdr) (phdrs : Nat → List UInt8) :
    Nat → Nat → Nat → List Elf32_Phdr
  | 0, _, _ => []
  | n + 1, i, hoff =>
    phdrAt fs start (phdrs i) hoff :: phdrsFrom fs start hdr phdrs n (i + 1)
    (w32 (hoff + hdr.e_phentsize))

/-- All program headers of a file. -/
def programHeaders (fs : Fat439) (start : Nat) (hdr : List UInt8) (phdrs : Nat → List UInt8) :
    List Elf32_Phdr :=
  let hdr := Elf32_Ehdr.ofBytes (fill hdr (bytesAt fs start 0 52))
  phdrsFrom fs start hdr phdrs hdr.e_phnum 0 hdr.e_phoff

/-- How many bytes a segment has in a file of `length` bytes. -/
def Elf32_Phdr.size (phdr : Elf32_Phdr) (length : Nat) : Nat :=
  if phdr.p_type = PT_LOAD then min phdr.p_filesz (length - phdr.p_offset) else 0

/-- No segment with bytes in it begins in the kernel, among those that are reached: the segments
before it have no bytes, or fit into the user half. -/
def Spares (limit length : Nat) : List Elf32_Phdr → Prop
  | [] => True
  | phdr :: phdrs =>
    ¬(0 < phdr.size length ∧ InKernel limit phdr.p_vaddr) ∧
      (phdr.size length = 0 ∨ 0x80000000 ≤ phdr.p_vaddr ∧
        phdr.p_vaddr + phdr.size length ≤ 0x100000000 →
        Spares limit length phdrs)

section

variable {fs : Fat439} {prog : Fat439File} {limit n i hoff : Nat} {hdr : Elf32_Ehdr}
  {phdrs : Nat → List UInt8}

theorem readFully_bytesAt (hlen : (fs.metaData prog.openFile).length < 0x100000000) (o n : Nat) :
    ∃ code o', (prog.seek o).readFully fs n =
      some (code, bytesAt fs prog.openFile o n, { prog with offset := o' }) ∧
      (bytesAt fs prog.openFile o n).length = min n ((fs.metaData prog.openFile).length - o) := by
  obtain ⟨code, bytes, o', hread, hlen'⟩ := readFully_seek hlen o n
  have hbytes : bytesAt fs prog.openFile o n = bytes := by
    rw [bytesAt]
    exact congrArg (fun r => (r.map (·.2.1)).getD []) hread
  exact ⟨code, o', by rw [hread, hbytes], by rw [hbytes, hlen']⟩

theorem decodeLE_take_lt (l : List UInt8) : decodeLE (l.take 4) < 0x100000000 := by
  have hle : (l.take 4).length ≤ 4 := List.length_take_le ..
  exact Nat.lt_of_lt_of_le (decodeLE_lt (l.take 4)) (Nat.pow_le_pow_right (by decide) hle)

theorem p_vaddr_lt {l : List UInt8} : (Elf32_Phdr.ofBytes l).p_vaddr < 0x100000000 :=
  decodeLE_take_lt _

theorem loadLoop_userOnly (hlimit : limit ≤ 0x80000000)
    (hlen : (fs.metaData prog.openFile).length < 0x100000000) :
    ∃ log e, loadLoop limit fs hdr phdrs n i hoff prog = some (log, e) ∧
      (UserOnly log ↔ Spares limit (fs.metaData prog.openFile).length
        (phdrsFrom fs prog.openFile hdr phdrs n i hoff)) := by
  induction n generalizing i hoff prog with
  | zero => exact ⟨[], none, rfl, iff_of_true userOnly_nil trivial⟩
  | succ n ih =>
    obtain ⟨code, o', hread, -⟩ := readFully_bytesAt hlen hoff 32
    rw [loadLoop, phdrsFrom, hread]
    dsimp only [bind, Option.bind]
    rw [← phdrAt]
    generalize hp : phdrAt fs prog.openFile (phdrs i) hoff = phdr
    have hv : phdr.p_vaddr < 0x100000000 := by
      rw [← hp]
      exact p_vaddr_lt
    rw [Spares]
    rcases Nat.decEq phdr.p_type PT_LOAD with hne | heq
    · obtain ⟨log, e, hrest, hiff⟩ :=
        @ih { prog with offset := o' } (i + 1) (w32 (hoff + hdr.e_phentsize)) hlen
      rw [if_neg hne, Elf32_Phdr.size, if_neg hne]
      refine ⟨log, e, hrest,
        hiff.trans ⟨fun h => ⟨fun h0 => absurd h0.1 (Nat.lt_irrefl 0), fun _ => h⟩,
        fun h => ?_⟩⟩
      exact h.2 (.inl rfl)
    obtain ⟨code', o'', hread', hsize⟩ :=
      @readFully_bytesAt fs { prog with offset := o' } hlen phdr.p_offset phdr.p_filesz
    rw [if_pos heq, hread']
    dsimp only at hsize ⊢
    generalize bytesAt fs prog.openFile phdr.p_offset phdr.p_filesz = bytes at hsize ⊢
    have hsz : phdr.size (fs.metaData prog.openFile).length = bytes.length := by
      rw [Elf32_Phdr.size, if_pos heq, hsize]
    have hnil : bytes ≠ [] ↔ 0 < bytes.length := List.length_pos_iff.symm
    have huser : UserOnly (stores limit phdr.p_vaddr bytes).1 ↔
        ¬(0 < bytes.length ∧ InKernel limit phdr.p_vaddr) := by
      rw [userOnly_stores_iff hlimit hv, hnil]
    have hend (hk : ¬(0 < bytes.length ∧ InKernel limit phdr.p_vaddr)) :
        (stores limit phdr.p_vaddr bytes).2 = none ↔
          bytes.length = 0 ∨ 0x80000000 ≤ phdr.p_vaddr ∧
            phdr.p_vaddr + bytes.length ≤ 0x100000000 := by
      rw [stores_none_iff hv fun h h' => hk ⟨hnil.mp h, h'⟩, List.length_eq_zero_iff]
    rw [hsz]
    rcases hst : stores limit phdr.p_vaddr bytes with ⟨log, _ | e⟩
    · -- the segment is loaded
      rw [hst] at huser hend
      obtain ⟨rest, e, hrest, hiff⟩ :=
        @ih { prog with offset := o'' } (i + 1) (w32 (hoff + hdr.e_phentsize)) hlen
      refine ⟨log ++ rest, e, by rw [hrest], ?_⟩
      rw [userOnly_append, huser, hiff]
      refine and_congr_right fun hk => ⟨fun h _ => h, fun h => h ((hend hk).mp rfl)⟩
    · -- the process ends here
      rw [hst] at huser hend
      refine ⟨log, some e, rfl, huser.trans ⟨fun hk => ⟨hk, fun h => ?_⟩, fun h => h.1⟩⟩
      cases (hend hk).mpr h

theorem sysRead_userOnly_iff (hlimit : limit ≤ 0x80000000) {file : Option Fat439File}
    {buf len : Nat} (hlen : ∀ s, (fs.metaData s).length < 0x100000000)
    (hbuf : buf < 0x100000000) :
    UserOnly (sysRead limit fs file buf len).1 ↔
      ¬∃ f, file = some f ∧ 0 < len ∧ f.offset < (fs.metaData f.openFile).length ∧
      InKernel limit buf := by
  cases file with
  | none => exact iff_of_true userOnly_nil fun ⟨_, h, _⟩ => by cases h
  | some f =>
    rw [sysRead]
    rcases Nat.lt_or_ge (fs.metaData f.openFile).length f.offset with hlt | hle
    · rw [read_tooLong hlt]
      refine iff_of_true userOnly_nil ?_
      rintro ⟨g, hg, -, ho, -⟩
      cases hg
      exact absurd hlt (Nat.lt_asymm ho)
    obtain ⟨bytes, m, hread, hm, hle', hzero⟩ := read_length (n := len) (hlen _) hle
    rw [hread]
    dsimp only
    rw [userOnly_stores_iff hlimit hbuf]
    refine not_congr ⟨fun h => ⟨f, rfl, ?_, ?_, h.2⟩, ?_⟩
    · have hpos := List.length_pos_iff.mpr h.1
      omega
    · have hpos := List.length_pos_iff.mpr h.1
      omega
    · rintro ⟨g, hg, hpos, ho, hk⟩
      cases hg
      refine ⟨List.length_pos_iff.mp (Nat.pos_of_ne_zero fun h0 => ?_), hk⟩
      have := hzero (hm.symm.trans h0)
      omega

theorem load_userOnly_iff (hlimit : limit ≤ 0x80000000)
    (hlen : (fs.metaData prog.openFile).length < 0x100000000) (hdr : List UInt8)
    (phdrs : Nat → List UInt8) :
    ∃ log e, load limit fs prog hdr phdrs = some (log, e) ∧
      (UserOnly log ↔ Spares limit (fs.metaData prog.openFile).length
        (programHeaders fs prog.openFile hdr phdrs)) := by
  obtain ⟨code, o', hread, -⟩ := readFully_bytesAt hlen 0 52
  rw [load, hread, programHeaders]
  have hprog : (fs.metaData { prog with offset := o' }.openFile).length < 0x100000000 := hlen
  exact loadLoop_userOnly hlimit hprog

end

/-- **The kernel stores in the user half only** exactly when neither a buffer nor a segment is one
of its own. -/
theorem kernel_stores_iff {limit : Nat} (hlimit : limit ≤ 0x80000000) (fs : Fat439)
    (hlen : ∀ s, (fs.metaData s).length < 0x100000000) :
    (∀ (file : Option Fat439File) (buf len : Nat), buf < 0x100000000 →
      (UserOnly (sysRead limit fs file buf len).1 ↔
        ¬∃ f, file = some f ∧ 0 < len ∧ f.offset < (fs.metaData f.openFile).length ∧
        InKernel limit buf)) ∧
    ∀ (prog : Fat439File) (hdr : List UInt8) (phdrs : Nat → List UInt8), ∃ log e,
    load limit fs prog hdr phdrs = some (log, e) ∧
        (UserOnly log ↔ Spares limit (fs.metaData prog.openFile).length
          (programHeaders fs prog.openFile hdr phdrs)) :=
  ⟨fun _ _ _ hbuf => sysRead_userOnly_iff hlimit hlen hbuf,
    fun prog hdr phdrs => load_userOnly_iff hlimit (hlen prog.openFile) hdr phdrs⟩

/-- The ELF file of a program with two segments: three bytes of the file and two of zero, and two
bytes. -/
def elfBytes : List UInt8 :=
  List.replicate 28 0 ++ le32 52 ++ List.replicate 10 0 ++ [32, 0, 2, 0] ++ List.replicate 6 0 ++
    [1, 116, 0x80000000, 0, 3, 5, 0, 0].flatMap le32 ++
      [1, 119, 0x80001000, 0, 2, 2, 0, 0].flatMap le32 ++
    [1, 2, 3, 4, 5]

/-- The file is in the block 3. -/
def elfFs : Fat439 where
  dev := put (fun _ => 0) 1536 (MetaData.bytes ⟨1, 121, 1023, 3⟩ ++ elfBytes)
  super := ⟨0x39333446, 8, 4, 7⟩
  fat := fun _ => 0
  openFilesMutex := 1
  openFiles := fun s => if s = 3 then some ⟨⟨1, 121, 1023, 3⟩, 1⟩ else none

/-- The stores of the segments. -/
def elfLog : Log :=
  [(0x80000000, 1), (0x80000001, 2), (0x80000002, 3), (0x80001000, 4), (0x80001001, 5)]

theorem load_elfFs : load 0x400000 elfFs ⟨3, 0⟩ [] (fun _ => []) = some (elfLog, none) := by
  decide +kernel

theorem elfFs_length (s : Nat) : (elfFs.metaData s).length < 0x100000000 := by
  rw [Fat439.metaData, Fat439.fileAt]
  rcases Nat.decEq s 3 with hne | rfl
  · have hnone : elfFs.openFiles s = none := if_neg hne
    rw [hnone]
    exact decodeLE_take_lt _
  · decide

/-- The file is read into the user half, and loaded. -/
theorem kernel_stores_elfFs :
    UserOnly (sysRead 0x400000 elfFs (some ⟨3, 0⟩) 0x80000000 5).1 ∧
      load 0x400000 elfFs ⟨3, 0⟩ [] (fun _ => []) = some (elfLog, none) ∧
      UserOnly elfLog := by
  have h := kernel_stores_iff (show 0x400000 ≤ 0x80000000 by decide) elfFs elfFs_length
  obtain ⟨log, e, hload, hiff⟩ := h.2 ⟨3, 0⟩ [] fun _ => []
  rw [load_elfFs, Option.some.injEq, Prod.mk.injEq] at hload
  obtain ⟨rfl, rfl⟩ := hload
  have hphdrs :
      programHeaders elfFs 3 [] (fun _ => []) =
      [⟨1, 116, 0x80000000, 3⟩, ⟨1, 119, 0x80001000, 2⟩] := by
    decide +kernel
  refine ⟨(h.1 _ _ _ (by decide)).mpr ?_, load_elfFs, hiff.mpr ?_⟩
  · rintro ⟨-, -, -, -, hk⟩
    exact absurd hk.2 (by decide)
  · rw [hphdrs]
    refine ⟨fun h => absurd h.2.2 (by decide),
      fun _ => ⟨fun h => absurd h.2.2 (by decide), fun _ => trivial⟩⟩

/-- The first byte of a file goes into the kernel. -/
theorem sysRead_kernel :
    (sysRead 0x400000 oneByteFile (some ⟨3, 0⟩) 0x100000 1).1 = [(0x100000, 7)] ∧
      ¬UserOnly (sysRead 0x400000 oneByteFile (some ⟨3, 0⟩) 0x100000 1).1 := by
  have hlog : (sysRead 0x400000 oneByteFile (some ⟨3, 0⟩) 0x100000 1).1 = [(0x100000, 7)] := by
    decide
  refine ⟨hlog, fun h => ?_⟩
  rw [hlog] at h
  exact absurd (h.1 _ (List.mem_singleton_self _)).1 (by decide)

end K439.User
