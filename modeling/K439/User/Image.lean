import K439.User.Arguments
import K439.User.Stores
import K439.Vmm.Contents

/-!
# The image of a program

`execv` stores the bytes of the segments and nothing else. The rest of a segment is zero because
`exec` took away all pages of the address space, and those that come back are zeros.
-/

namespace K439.User

open Fs Vmm

/-- The ELF header of a file with the bytes `c`. -/
def elfHeader (c : List UInt8) : Elf32_Ehdr := .ofBytes (c.take 52)

/-- The bytes of the program header `i`. -/
def phdrBytes (c : List UInt8) (i : Nat) : List UInt8 :=
  (c.drop ((elfHeader c).e_phoff + i * (elfHeader c).e_phentsize)).take 32

def programHeader (c : List UInt8) (i : Nat) : Elf32_Phdr := .ofBytes (phdrBytes c i)

/-- `execv` does not look at it. -/
def p_memsz (c : List UInt8) (i : Nat) : Nat := decodeLE (((phdrBytes c i).drop 20).take 4)

/-- `i` is the number of a segment that is loaded. -/
def Loads (c : List UInt8) (i : Nat) : Prop :=
  i < (elfHeader c).e_phnum ∧ (programHeader c i).p_type = PT_LOAD

/-- `x` is one of the first `size` addresses of the segment `i`. -/
def InSegment (c : List UInt8) (i size x : Nat) : Prop :=
  (programHeader c i).p_vaddr ≤ x ∧ x < (programHeader c i).p_vaddr + size

/-- A file that can be loaded beside the addresses `A`. -/
structure Loadable (c : List UInt8) (A : Nat → Prop) : Prop where
  header : 52 ≤ c.length
  headers : ∀ i < (elfHeader c).e_phnum,
    (elfHeader c).e_phoff + i * (elfHeader c).e_phentsize + 32 ≤ c.length
  user : ∀ i, Loads c i → 0x80000000 ≤ (programHeader c i).p_vaddr ∧
    (programHeader c i).p_vaddr + p_memsz c i ≤ 0x100000000
  memsz : ∀ i, Loads c i → (programHeader c i).p_filesz ≤ p_memsz c i
  file : ∀ i, Loads c i → (programHeader c i).p_offset + (programHeader c i).p_filesz ≤
    c.length
  disjoint : ∀ i j x, Loads c i → Loads c j → InSegment c i (p_memsz c i) x →
    InSegment c j (p_memsz c j) x → i = j
  apart : ∀ i x, Loads c i → InSegment c i (p_memsz c i) x → ¬A x

/-- The bytes of the user half of an address space. -/
def view (m : PhysMem) (pd : UInt32) : Mem := fun x => AddressSpace.bytes m pd x.toUInt32

/-- The stores, through the tables of the address space. `none`: there are no more frames, or a
store is not in the user half. -/
def storeLog (pd : UInt32) (m : PhysMem) (log : Log) : Option PhysMem :=
  log.foldlM (fun m w => match AddressSpace.storeByte m pd w.1.toUInt32 w.2 with
    | .mapped m => some m
    | .kill => none
    | .panic => none) m

section

variable {limit n i hoff : Nat} {fs : Fat439} {prog : Fat439File} {bs : List Nat} {c : List UInt8}
  {A : Nat → Prop}
  {phdrs : Nat → List UInt8} {log : Log} {r : Vmm.Region} {m m' : PhysMem} {pd : UInt32}
    {live : List UInt32}

/-! ## Stores through the tables -/

theorem toNat_toUInt32 {x : Nat} (hx : x < 0x100000000) : x.toUInt32.toNat = x :=
  UInt32.toNat_ofNat_of_lt' hx

theorem toUInt32_eq_iff {x y : Nat} (hx : x < 0x100000000) (hy : y < 0x100000000) :
    x.toUInt32 = y.toUInt32 ↔ x = y := by
  constructor
  · intro h
    rw [← toNat_toUInt32 hx, ← toNat_toUInt32 hy, h]
  · exact fun h => h ▸ rfl

theorem le_toUInt32 {x : Nat} (h : 0x80000000 ≤ x) (hx : x < 0x100000000) :
    0x80000000 ≤ x.toUInt32 := by
  rw [UInt32.le_iff_toNat_le, toNat_toUInt32 hx]
  exact h

theorem Mem.after_congr {mem mem' : Mem} {x : Nat} (h : mem x = mem' x) :
    mem.after log x = mem'.after log x := by
  induction log generalizing mem mem' with
  | nil => exact h
  | cons w log ih =>
    refine ih ?_
    dsimp only
    rw [Function.update_apply, Function.update_apply, h]

theorem Mem.after_append {mem : Mem} {log' : Log} :
    mem.after (log ++ log') = (mem.after log).after log' :=
  List.foldl_append ..

/-- What the stores make of the bytes of the user half. -/
theorem storeLog_view (R : Rest r live m) (ha : pd ∈ live)
    (hlog : ∀ w ∈ log, 0x80000000 ≤ w.1 ∧ w.1 < 0x100000000)
    (h : storeLog pd m log = some m') :
    Rest r live m' ∧ ∀ x, 0x80000000 ≤ x → x < 0x100000000 →
    view m' pd x = (view m pd).after log x := by
  induction log generalizing m with
  | nil =>
    cases h
    exact ⟨R, fun _ _ _ => rfl⟩
  | cons w log ih =>
    obtain ⟨hw, hw'⟩ := hlog w List.mem_cons_self
    rw [storeLog, List.foldlM_cons] at h
    obtain ⟨m₁, hm, h⟩ := Option.bind_eq_some_iff.mp h
    split at hm
    next hst =>
      cases hm
      obtain ⟨R₁, hbytes⟩ := R.storeByte ha (le_toUInt32 hw hw') hst
      obtain ⟨R', hview⟩ := ih R₁ (fun v hv => hlog v (List.mem_cons_of_mem w hv)) h
      refine ⟨R', fun x hx hx' => (hview x hx hx').trans (Mem.after_congr ?_)⟩
      dsimp only
      rw [view, hbytes _ (le_toUInt32 hx hx'), Function.update_apply]
      simp only [toUInt32_eq_iff hx' hw', view]
    · cases hm
    · cases hm

/-! ## The loop over the program headers -/

theorem ofBytes_fill {old l : List UInt8} (h : l.length = 32) :
    Elf32_Phdr.ofBytes (fill old l) = Elf32_Phdr.ofBytes l := by
  have hfield : ∀ k, k + 4 ≤ 32 → ((fill old l).drop k).take 4 = (l.drop k).take 4 := by
    intro k hk
    rw [fill, List.drop_append_of_le_length (by omega),
      List.take_append_of_le_length (by rw [List.length_drop]; omega)]
  have h0 := hfield 0 (by omega)
  rw [List.drop_zero, List.drop_zero] at h0
  rw [Elf32_Phdr.ofBytes, Elf32_Phdr.ofBytes, h0, hfield 4 (by omega), hfield 8 (by omega),
    hfield 16 (by omega)]

theorem elfHeader_fill {old l : List UInt8} (h : l.length = 52) :
    Elf32_Ehdr.ofBytes (fill old l) = Elf32_Ehdr.ofBytes l := by
  have hfield : ∀ k n, k + n ≤ 52 → ((fill old l).drop k).take n = (l.drop k).take n := by
    intro k n hk
    rw [fill, List.drop_append_of_le_length (by omega),
      List.take_append_of_le_length (by rw [List.length_drop]; omega)]
  rw [Elf32_Ehdr.ofBytes, Elf32_Ehdr.ofBytes, hfield 28 4 (by omega), hfield 42 2 (by omega),
    hfield 44 2 (by omega)]

theorem e_phoff_lt : (elfHeader c).e_phoff < 0x100000000 := decodeLE_take_lt _

/-- The bytes of a segment of the file. -/
def segmentBytes (c : List UInt8) (i : Nat) : List UInt8 :=
  (c.drop (programHeader c i).p_offset).take (programHeader c i).p_filesz

theorem Loadable.segmentBytes_length (L : Loadable c A) (h : Loads c i) :
    (segmentBytes c i).length = (programHeader c i).p_filesz := by
  have := L.file i h
  rw [segmentBytes, List.length_take, List.length_drop]
  omega

/-- `mem'` is `mem` with the bytes of the segments from the header `i` on. -/
structure Loaded (c : List UInt8) (i : Nat) (mem mem' : Mem) : Prop where
  segment : ∀ k, i ≤ k → Loads c k → ∀ o (h : o < (segmentBytes c k).length),
    mem' ((programHeader c k).p_vaddr + o) = (segmentBytes c k)[o]
  rest : ∀ x, (∀ k, i ≤ k → Loads c k → ¬InSegment c k (programHeader c k).p_filesz x) →
    mem' x = mem x

/-- A header of another type has no effect. -/
theorem Loaded.skip {mem mem' : Mem} (D : Loaded c (i + 1) mem mem') (hno : ¬Loads c i) :
    Loaded c i mem mem' := by
  have hne : ∀ k, i ≤ k → Loads c k → i + 1 ≤ k := fun k hk h =>
    Nat.lt_of_le_of_ne hk fun he => hno (he ▸ h)
  exact ⟨fun k hk h => D.segment k (hne k hk h) h,
    fun x hx => D.rest x fun k hk => hx k (Nat.le_of_succ_le hk)⟩

/-- The segments after it do not touch a segment. -/
theorem Loaded.store {mem mem' : Mem} (L : Loadable c A) (hi : Loads c i)
    (D : Loaded c (i + 1) (put mem (programHeader c i).p_vaddr (segmentBytes c i)) mem') :
    Loaded c i mem mem' := by
  have hlen := L.segmentBytes_length hi
  have hmem : ∀ {k x}, Loads c k → InSegment c k (programHeader c k).p_filesz x →
      InSegment c k (p_memsz c k) x :=
    fun {k x} hk h => ⟨h.1, Nat.lt_of_lt_of_le h.2 (Nat.add_le_add_left (L.memsz k hk) _)⟩
  refine ⟨fun k hk h o ho => ?_, fun x hx => ?_⟩
  · rcases Nat.eq_or_lt_of_le hk with rfl | hlt
    · rw [D.rest, put_add ho]
      intro k hk' h' hin
      have hin' : InSegment c i (programHeader c i).p_filesz ((programHeader c i).p_vaddr + o) :=
        ⟨Nat.le_add_right _ _, by omega⟩
      have := L.disjoint k i _ h' h (hmem h' hin) (hmem h hin')
      omega
    · exact D.segment k hlt h o ho
  · rw [D.rest x fun k hk h => hx k (Nat.le_of_succ_le hk) h, put_of_outside]
    have := hx i (Nat.le_refl i) hi
    rw [InSegment] at this
    omega

/-- The loop from the header `i` on. -/
theorem Loadable.loadLoop (L : Loadable c A) (C : Covers fs prog.openFile bs)
    (hc : contents fs prog.openFile bs = c) (hn : i + n = (elfHeader c).e_phnum) :
    ∃ log, loadLoop limit fs (elfHeader c) phdrs n i
    (w32 ((elfHeader c).e_phoff + i * (elfHeader c).e_phentsize)) prog = some (log, none) ∧
      (∀ w ∈ log, 0x80000000 ≤ w.1 ∧ w.1 < 0x100000000) ∧ ∀ mem :
      Mem, Loaded c i mem (mem.after log) := by
  induction n generalizing i prog with
  | zero =>
    refine ⟨[], rfl, fun _ h => absurd h List.not_mem_nil,
      fun mem => ⟨fun k hk h => ?_, fun _ _ => rfl⟩⟩
    exact absurd h.1 (by omega)
  | succ n ih =>
    have hlt := C.length_lt
    have hclen : c.length = (fs.metaData prog.openFile).length := by
      rw [← hc, Covers.length_contents]
    have hhead := L.headers i (by omega)
    have hnext : (elfHeader c).e_phoff + i * (elfHeader c).e_phentsize + (elfHeader c).e_phentsize =
        (elfHeader c).e_phoff + (i + 1) * (elfHeader c).e_phentsize := by
      rw [Nat.succ_mul, Nat.add_assoc]
    have hphdr : ((c.drop ((elfHeader c).e_phoff + i * (elfHeader c).e_phentsize)).take 32).length =
        32 := by
      rw [List.length_take, List.length_drop]
      omega
    -- the header is read
    have hread :=
      C.readFully (o := (elfHeader c).e_phoff + i * (elfHeader c).e_phentsize) (n := 32) (by omega)
    rw [hc] at hread
    rw [K439.User.loadLoop, w32_of_lt (by omega), Fat439File.seek, hread, Option.bind_eq_bind,
      Option.bind_some]
    dsimp only
    rw [ofBytes_fill hphdr, hnext, ← phdrBytes, ← programHeader]
    split
    next hload =>
      have hi : Loads c i := ⟨by omega, hload⟩
      have hfile := L.file i hi
      have huser := L.user i hi
      have hmemsz := L.memsz i hi
      have hlen := L.segmentBytes_length hi
      -- and then the segment
      have hread :=
        C.readFully (o := (programHeader c i).p_offset) (n := (programHeader c i).p_filesz)
          (by omega)
      rw [hc] at hread
      rw [Fat439File.seek, hread, Option.bind_some]
      dsimp only
      rw [← segmentBytes]
      obtain ⟨log, hlog, hafter⟩ :=
        @stores_user_put limit (programHeader c i).p_vaddr (segmentBytes c i) huser.1
        (by omega)
      have huserLog := @stores_user limit _ (segmentBytes c i) huser.1 p_vaddr_lt
      rw [hlog] at huserLog ⊢
      obtain ⟨rest, hrest, huser', hloaded⟩ := @ih (i + 1)
        ⟨prog.openFile, (programHeader c i).p_offset +
          min (programHeader c i).p_filesz
            ((fs.metaData prog.openFile).length - (programHeader c i).p_offset)⟩
        C hc (by omega)
      rw [hrest]
      refine ⟨log ++ rest, rfl, fun w hw => ?_, fun mem => .store L hi ?_⟩
      · exact (List.mem_append.mp hw).elim (huserLog w) (huser' w)
      · rw [← hafter, Mem.after_append]
        exact hloaded (mem.after log)
    next hload =>
      obtain ⟨log, hlog, huser, hloaded⟩ := @ih (i + 1)
        ⟨prog.openFile, (elfHeader c).e_phoff + i * (elfHeader c).e_phentsize +
          min 32 ((fs.metaData prog.openFile).length - ((elfHeader c).e_phoff +
            i * (elfHeader c).e_phentsize))⟩
        C hc (by omega)
      exact ⟨log, hlog, huser, fun mem => (hloaded mem).skip fun h => hload h.2⟩

/-- What the load makes of the bytes `mem` of the user half. -/
structure ProgramImage (c : List UInt8) (A : Nat → Prop) (mem mem' : Mem) : Prop where
  segment : ∀ i, Loads c i → ∀ k < (programHeader c i).p_filesz,
    mem' ((programHeader c i).p_vaddr + k) = c.getD ((programHeader c i).p_offset + k) 0
  bss : ∀ i x, Loads c i → InSegment c i (p_memsz c i) x →
    ¬InSegment c i (programHeader c i).p_filesz x → mem' x = 0
  arguments : ∀ x, A x → 0x80000000 ≤ x → x < 0x100000000 → mem' x = mem x
  /-- Nothing else is stored, whatever other headers there are. -/
  rest : ∀ x, 0x80000000 ≤ x → x < 0x100000000 →
    (∀ i, Loads c i → ¬InSegment c i (programHeader c i).p_filesz x) → mem' x = mem x

theorem Loaded.image {mem mem' : Mem} (L : Loadable c A) (D : Loaded c 0 mem (mem.after log))
    (hmem : ∀ x, 0x80000000 ≤ x → x < 0x100000000 → mem' x = mem.after log x)
    (hzero : ∀ x, 0x80000000 ≤ x → x < 0x100000000 → ¬A x → mem x = 0) :
    ProgramImage c A mem mem' := by
  have hrest : ∀ x, 0x80000000 ≤ x → x < 0x100000000 →
      (∀ i, Loads c i → ¬InSegment c i (programHeader c i).p_filesz x) → mem' x = mem x :=
        fun x hx hx' h =>
    (hmem x hx hx').trans (D.rest x fun k _ => h k)
  have hsub : ∀ {i x}, Loads c i → InSegment c i (programHeader c i).p_filesz x →
      InSegment c i (p_memsz c i) x :=
    fun {i x} hi h => ⟨h.1, Nat.lt_of_lt_of_le h.2 (Nat.add_le_add_left (L.memsz i hi) _)⟩
  refine ⟨fun i hi k hk => ?_, fun i x hi hx hno => ?_, fun x hx h h' => ?_, hrest⟩
  · have huser := L.user i hi
    have hmemsz := L.memsz i hi
    have hfile := L.file i hi
    have hlen : k < (segmentBytes c i).length := by rwa [L.segmentBytes_length hi]
    rw [hmem _ (by omega) (by omega), D.segment i (Nat.zero_le i) hi k hlen,
      List.getD_eq_getElem _ _ (by omega)]
    simp only [segmentBytes, List.getElem_take, List.getElem_drop]
  · have huser := L.user i hi
    have hx₁ := hx.1
    have hx₂ := hx.2
    rw [hrest x (by omega) (by omega) fun j hj hin => ?_,
      hzero x (by omega) (by omega) (L.apart i x hi hx)]
    obtain rfl := L.disjoint i j x hi hj hx (hsub hj hin)
    exact hno hin
  · exact hrest x h h' fun i hi hin => L.apart i x hi (hsub hi hin) hx

/-- **The load builds the image of the program.** The address space `pd` is cleared by `exec`, then
the arguments are stored at addresses of `A`, and then the file is loaded. -/
theorem load_image {s : Vmm.State} {mem : UInt32 → Nat → UInt32} {ops : List Vmm.Op}
    {args : Log} {m₁ : PhysMem} {hdr : List UInt8}
    (hrun : Run Vmm.Step (Vmm.State.init r mem) ops s) (ha : pd ∈ s.live)
    (C : Covers fs prog.openFile bs) (L : Loadable (contents fs prog.openFile bs) A)
    (hargs : ∀ w ∈ args, A w.1 ∧ 0x80000000 ≤ w.1 ∧ w.1 < 0x100000000)
    (h : storeLog pd (AddressSpace.exec s.mem pd) args = some m₁) :
    ∃ log, load limit fs prog hdr phdrs = some (log, none) ∧ ∀ m₂, storeLog pd m₁ log =
    some m₂ →
      ProgramImage (contents fs prog.openFile bs) A (view m₁ pd) (view m₂ pd) := by
  have R : Rest r s.live s.mem :=
    hrun.inv (I := fun s => Rest r s.live s.mem) (fun _ _ _ R h => R.step h)
    (Rest.init r mem)
  obtain ⟨R₁, hview⟩ := storeLog_view (R.exec ha) ha (fun w hw => (hargs w hw).2) h
  have hlen : (contents fs prog.openFile bs).length = (fs.metaData prog.openFile).length :=
    Covers.length_contents
  have hlt := C.length_lt
  have h52 := L.header
  -- the header
  have hread := C.readFully (o := 0) (n := 52) (Nat.zero_le _)
  rw [List.drop_zero] at hread
  have hhdr : ((contents fs prog.openFile bs).take 52).length = 52 := by
    rw [List.length_take]
    omega
  obtain ⟨log, hlog, huser, hloaded⟩ := @Loadable.loadLoop limit _ 0 fs
    ⟨prog.openFile, 0 + min 52 ((fs.metaData prog.openFile).length - 0)⟩ bs _ A phdrs L C rfl
      (Nat.zero_add _)
  refine ⟨log, ?_, fun m₂ hm₂ => ?_⟩
  · rw [Nat.zero_mul, Nat.add_zero, w32_of_lt e_phoff_lt] at hlog
    rw [load, Fat439File.seek, hread, Option.bind_eq_bind, Option.bind_some]
    dsimp only
    rw [elfHeader_fill hhdr]
    exact hlog
  · obtain ⟨-, hview₂⟩ := storeLog_view R₁ ha huser hm₂
    refine (hloaded (view m₁ pd)).image L hview₂ fun x hx hx' hA => ?_
    rw [hview x hx hx', Mem.after_of_notMem fun w hw (he : w.1 = x) => hA (he ▸ (hargs w hw).1),
      view, R.exec_bytes ha (le_toUInt32 hx hx')]

end

theorem elfFs_covers : Covers elfFs 3 [3] :=
  ⟨by simp [Linked, elfFs], by decide, by decide, by decide⟩

theorem elfFs_contents : contents elfFs 3 [3] = elfBytes := by decide +kernel

theorem elfBytes_loadable : Loadable elfBytes (userESP ≤ ·) := by
  have hnum : (elfHeader elfBytes).e_phnum = 2 := by decide
  have h01 : ∀ i, i < (elfHeader elfBytes).e_phnum → i = 0 ∨ i = 1 := fun i h => by omega
  -- the segments lie in two pages
  have hpage : ∀ i x, Loads elfBytes i → InSegment elfBytes i (p_memsz elfBytes i) x →
      x / 0x1000 = 0x80000 + i := by
    rintro i x ⟨hi, -⟩ hx
    rw [InSegment] at hx
    rcases h01 i hi with rfl | rfl
    · rw [show (programHeader elfBytes 0).p_vaddr = 0x80000000 by decide, show p_memsz elfBytes 0 =
        5 by decide] at hx
      omega
    · rw [show (programHeader elfBytes 1).p_vaddr = 0x80001000 by decide, show p_memsz elfBytes 1 =
        2 by decide] at hx
      omega
  refine ⟨by decide, fun i hi => ?_, fun i h => ?_, fun i h => ?_, fun i h => ?_,
    fun i j x h h' hx hx' => ?_,
    fun i x h hx => ?_⟩
  · rcases h01 i hi with rfl | rfl
    · decide
    · decide
  · rcases h01 i h.1 with rfl | rfl
    · decide
    · decide
  · rcases h01 i h.1 with rfl | rfl
    · decide
    · decide
  · rcases h01 i h.1 with rfl | rfl
    · decide
    · decide
  · have := hpage i x h hx
    have := hpage j x h' hx'
    omega
  · have := hpage i x h hx
    have := h.1
    rw [userESP]
    omega

/-- The argument "a" above `userESP`. -/
def argumentLog : Log := [(userESP, 0x61), (userESP + 1, 0)]

/-- The program is loaded into the first address space, beside the argument. -/
theorem load_image_elfFs :
    ∃ s m₁, Run Vmm.Step (Vmm.State.init smallRegion fun _ _ => 0) [.create] s ∧
    0x1000 ∈ s.live ∧ storeLog 0x1000 (AddressSpace.exec s.mem 0x1000) argumentLog =
    some m₁ ∧ load 0x400000 elfFs ⟨3, 0⟩ [] (fun _ => []) = some (elfLog, none) ∧
      ∃ m₂, storeLog 0x1000 m₁ elfLog = some m₂ ∧
        ProgramImage elfBytes (userESP ≤ ·) (view m₁ 0x1000) (view m₂ 0x1000) := by
  have hcheck : (match AddressSpace.create (PhysMem.init (fun _ _ => 0) 0x1000 0x8000) with
      | some (pd, m) =>
        decide (pd = 0x1000) && (List.range' 512 512).all (fun i => !decide (Present (m.mem pd i)))
          &&
        (((storeLog pd m argumentLog).bind fun m => storeLog pd m elfLog)).isSome
      | none => false) = true := by decide +kernel
  split at hcheck
  next pd m h =>
    simp only [Bool.and_eq_true, decide_eq_true_eq, List.all_eq_true, Bool.not_eq_true',
      decide_eq_false_iff_not]
      at hcheck
    obtain ⟨⟨rfl, hn⟩, hst⟩ := hcheck
    obtain ⟨m₂, hm₂⟩ := Option.isSome_iff_exists.mp hst
    obtain ⟨m₁, hm₁, hm₂⟩ := Option.bind_eq_some_iff.mp hm₂
    have hrun := Run.single (Vmm.Step.create (s := Vmm.State.init smallRegion fun _ _ => 0) h)
    have hargs : storeLog 0x1000 (AddressSpace.exec m 0x1000) argumentLog = some m₁ := by
      rw [exec_eq_self hn, hm₁]
    obtain ⟨log, hlog, himage⟩ := @load_image 0x400000 elfFs ⟨3, 0⟩ [3] (userESP ≤ ·)
      (fun _ => []) _ _ _ _ _ argumentLog _ [] hrun List.mem_cons_self elfFs_covers
      (elfFs_contents.symm ▸ elfBytes_loadable) (by decide) hargs
    obtain rfl : log = elfLog := by
      rw [load_elfFs] at hlog
      cases hlog
      rfl
    have himage := himage m₂ hm₂
    rw [elfFs_contents] at himage
    exact ⟨_, m₁, hrun, List.mem_cons_self, hargs, load_elfFs, m₂, hm₂, himage⟩
  · cases hcheck

end K439.User
