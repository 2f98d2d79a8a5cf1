import K439.Lib.Memory
import K439.Vmm.Fork
import Mathlib.Data.UInt

/-!
# The memories of the programs

What a program finds in its user half is decided by the operations so far: the last store through
its address space, what its parent had there at `fork`, or zeros. `history` is this reading of a
run, and every step of the address spaces refines it; nothing of the frames, the free list and the
initial memory is left in it.
-/

namespace K439.Vmm

/-- A word of the user half: its index in the directory, in the table and in the page. -/
structure Cell where
  i0 : Nat
  i1 : Nat
  i2 : Nat
  deriving DecidableEq

def Cell.page (c : Cell) : Nat × Nat := (c.i0, c.i1)

def cell (va : UInt32) : Cell := ⟨index0 va, index1 va, pageOffset va / 4⟩

abbrev UserMemory := Memory Cell.page UInt32

namespace AddressSpace

variable (m : PhysMem) (pd : UInt32)

/-- The page is in the user half, and present. -/
def HasPage (q : Nat × Nat) : Prop :=
  512 ≤ q.1 ∧ q.1 < 1024 ∧ q.2 < 1024 ∧ Present (m.mem pd q.1) ∧
    Present (m.mem (frame (m.mem pd q.1)) q.2)

instance (q : Nat × Nat) : Decidable (HasPage m pd q) := inferInstanceAs (Decidable (_ ∧ _))

/-- The user half as the MMU finds it. -/
def userMemory : UserMemory where
  mapped := HasPage m pd
  word c := if HasPage m pd c.page then m.mem (frame (m.mem (frame (m.mem pd c.i0)) c.i1)) c.i2
    else 0
  zero _ h := if_neg h

end AddressSpace

/-- What an operation does to the memories. -/
def Op.effect : Op → Option (Memory.Op UInt32 Cell (Nat × Nat) UInt32)
  | .create => none
  | .fault pd va => some (.map pd (cell va).page)
  | .fork pd child => some (.copy pd child)
  | .exec pd => some (.clear pd)
  | .destroy pd => some (.clear pd)
  | .store pd va x => some (.store pd (cell va) x)

/-- The memories after the operations. -/
def history (ops : List Op) : UInt32 → UserMemory :=
  Memories.run (fun _ => .empty) (ops.filterMap Op.effect)

variable {r : Region} {m m' : PhysMem} {a b pd child va x f : UInt32} {live live' : List UInt32}
  {s s' : State}
  {ops : List Op} {op : Op} {i j k : Nat}

theorem hasPage_iff (ha : a ∈ live) :
    AddressSpace.HasPage m a (i, j) ↔ ∃ f, Page m live a i j f := by
  constructor
  · rintro ⟨hi, hi', hj, h0, h1⟩
    exact ⟨_, hi, hj, not_false, _, ⟨ha, not_false, hi', h0, rfl⟩, h1, rfl⟩
  · rintro ⟨f, hi, hj, -, t, ⟨-, -, hi', h0, rfl⟩, h1⟩
    exact ⟨hi, hi', hj, h0, h1.1⟩

theorem Page.word (ha : a ∈ live) (h : Page m live a i j f) :
    (AddressSpace.userMemory m a).word ⟨i, j, k⟩ = m.mem f k := by
  have hp : AddressSpace.HasPage m a (i, j) := (hasPage_iff ha).mpr ⟨f, h⟩
  obtain ⟨-, -, -, t, ht, hf⟩ := h
  refine (if_pos hp).trans ?_
  dsimp only
  rw [ht.2.2.2.2, hf.2]

/-- Memories with the same pages and the same words. -/
theorem userMemory_ext (ha : a ∈ live) {M : UserMemory}
    (hpage : ∀ i j, M.mapped (i, j) ↔ ∃ f, Page m live a i j f)
    (hword : ∀ i j k f, Page m live a i j f → M.word ⟨i, j, k⟩ = m.mem f k) :
    AddressSpace.userMemory m a = M := by
  ext q
  · obtain ⟨i, j⟩ := q
    exact (hasPage_iff ha).trans (hpage i j).symm
  · obtain ⟨i, j, k⟩ := q
    by_cases h : ∃ f, Page m live a i j f
    · obtain ⟨f, hf⟩ := h
      rw [hword i j k f hf, hf.word ha]
    · have h0 :=
        (AddressSpace.userMemory m a).zero ⟨i, j, k⟩ fun hm => h ((hasPage_iff ha).mp hm)
      rw [h0, M.zero ⟨i, j, k⟩ fun hm => h ((hpage i j).mp hm)]

/-- The memory of an address space whose pages are kept. -/
theorem Kept.userMemory (K : Same m live m' live' b) (hb : b ∈ live) (hb' : b ∈ live') :
    AddressSpace.userMemory m' b = AddressSpace.userMemory m b := by
  refine userMemory_ext hb' (fun i j => ?_) fun i j k f hf => ?_
  · exact (hasPage_iff hb).trans (exists_congr fun f => (K.page i j f).symm)
  · have hf' : Page m live b i j f := (K.page i j f).mp hf
    rw [hf'.word hb, K.mem i j f hf']

theorem userMemory_empty (ha : a ∈ live) (h : ∀ i j f, ¬Page m live a i j f) :
    AddressSpace.userMemory m a = .empty :=
  userMemory_ext ha (fun i j => iff_of_false not_false fun ⟨f, hf⟩ => h i j f hf) fun i j _ f
    hf => (h i j f hf).elim

/-! ## The operations -/

theorem Rest.fault_userMemory (R : Rest r live m) (ha : a ∈ live) (hva : 0x80000000 ≤ va)
    (hn : ¬AddressSpace.Mapped m a va) (h : AddressSpace.handlePageFault m a va = .mapped m') :
    AddressSpace.userMemory m' a = (AddressSpace.userMemory m a).map (cell va).page := by
  obtain ⟨-, p, hzero, hpage, hsame⟩ := R.fault_page ha hva hn h
  have hnone : ¬AddressSpace.HasPage m a (index0 va, index1 va) := by
    rw [hasPage_iff ha, ← mapped_iff ha (index0_user hva)]
    exact hn
  refine userMemory_ext ha (fun i j => ?_) fun i j k f hf => ?_
  · have hiff : (i, j) = (cell va).page ↔ i = index0 va ∧ j = index1 va :=
      Prod.mk.injEq .. ▸ Iff.rfl
    refine (or_congr (hasPage_iff ha) hiff).trans ⟨fun h => ?_, fun ⟨f, hf⟩ => ?_⟩
    · by_cases hnew : i = index0 va ∧ j = index1 va
      · exact ⟨p, by rw [hpage, if_pos ⟨rfl, hnew⟩]⟩
      · obtain ⟨f, hf⟩ := h.resolve_right hnew
        exact ⟨f, by rwa [hpage, if_neg fun h => hnew h.2]⟩
    · rw [hpage] at hf
      split at hf
      next hnew => exact .inr hnew.2
      · exact .inl ⟨f, hf⟩
  · rw [hpage] at hf
    split at hf
    next hnew =>
      obtain ⟨-, rfl, rfl⟩ := hnew
      rw [hf, hzero]
      exact (AddressSpace.userMemory m a).zero ⟨_, _, k⟩ hnone
    · rw [hsame a i j f hf]
      exact hf.word ha

theorem Rest.fork_userMemory (R : Rest r live m) (ha : a ∈ live) (hc : child ∈ live)
    (hn : ∀ i j f, ¬Page m live child i j f) (h : AddressSpace.fork m a child = some m') :
    AddressSpace.userMemory m' child = AddressSpace.userMemory m a := by
  rcases decEq a child with hne | rfl
  · have C := R.fork_copied ha hc hne hn h
    refine userMemory_ext hc (fun i j => (hasPage_iff ha).trans ?_) fun i j k f hf => ?_
    · by_cases hi : i < 1024
      · exact (C.page i j (.inl hi)).symm
      · refine iff_of_false (fun ⟨f, hf⟩ => ?_) fun ⟨f, hf⟩ => ?_
        · obtain ⟨-, -, -, t, ht, -⟩ := hf
          exact hi ht.2.2.1
        · obtain ⟨-, -, -, t, ht, -⟩ := hf
          exact hi ht.2.2.1
    · have hi : i < 1024 := by
        obtain ⟨-, -, -, t, ht, -⟩ := id hf
        exact ht.2.2.1
      obtain ⟨f₀, hf₀⟩ := (C.page i j (.inl hi)).mp ⟨f, hf⟩
      rw [hf₀.word ha, C.mem i j f₀ f hf₀ hf]
  · rw [fork_eq_self ha hn h]

theorem Rest.store_userMemory (R : Rest r live m) (ha : a ∈ live) (hva : 0x80000000 ≤ va)
    (hm : AddressSpace.Mapped m a va) :
    AddressSpace.userMemory (AddressSpace.store m a va x) a =
    (AddressSpace.userMemory m a).store (cell va) x := by
  obtain ⟨free, I⟩ := R
  obtain ⟨f, hf⟩ := (mapped_iff ha (index0_user hva)).mp hm
  have hown : Own m (Ghost.rest live free) (.page a (index0 va) (index1 va)) f := hf
  have hpage (i j : Nat) (f' : UInt32) : Page (AddressSpace.store m a va x) live a i j f' ↔
      Page m live a i j f' := by
    rw [AddressSpace.store, hf.translate]
    exact I.own_congr hown (fun _ => (by simp)) (fun _ _ _ => (by simp))
      (fun q hq => m.write_mem_ne hq) (.page a i j) f'
  refine userMemory_ext ha (fun i j => ?_) fun i j k f' hf' => ?_
  · refine (or_iff_left_of_imp fun he => ?_).trans
      ((hasPage_iff ha).trans (exists_congr fun f' => (hpage i j f').symm))
    rw [he]
    exact (hasPage_iff ha).mpr ⟨f, hf⟩
  · rw [hpage] at hf'
    have hown' : Own m (Ghost.rest live free) (.page a i j) f' := hf'
    have hmem : (AddressSpace.store m a va x).mem f' k = if f' = f ∧ k = pageOffset va / 4 then x
        else m.mem f' k := by
      rw [AddressSpace.store, hf.translate]
      rcases decEq f' f with hne | rfl
      · rw [m.write_mem_ne hne, if_neg fun h => hne h.1]
      · rw [m.write_mem]
        simp [pageOffset]
    rw [hmem]
    split
    next he =>
      obtain ⟨rfl, rfl⟩ := he
      have hs := I.exact.unique _ _ _ hown' hown
      rw [Slot.page.injEq] at hs
      obtain ⟨-, rfl, rfl⟩ := hs
      exact Function.update_self ..
    next he =>
      have hne : (⟨i, j, k⟩ : Cell) ≠ cell va := by
        intro hc
        obtain ⟨rfl, rfl, rfl⟩ := Cell.mk.inj hc
        exact he ⟨hown'.page_unique hown, rfl⟩
      exact (Function.update_of_ne hne ..).trans (hf'.word ha)

/-! ## Runs -/

/-- The address spaces hold the memories `S`, and who is not live has none. -/
structure Refines (r : Region) (s : State) (S : UInt32 → UserMemory) : Prop where
  rest : Rest r s.live s.mem
  memory : ∀ a ∈ s.live, AddressSpace.userMemory s.mem a = S a
  dead : ∀ a, a ∉ s.live → S a = .empty

namespace Refines

variable {S : UInt32 → UserMemory}

/-- An operation on the memory of `a`. -/
theorem update (C : Refines r s S) (R : Rest r live' m') {M : UserMemory}
    (hlive : ∀ b, b ≠ a → (b ∈ live' ↔ b ∈ s.live))
    (ha : a ∈ live' → AddressSpace.userMemory m' a = M) (hdead : a ∉ live' → M = .empty)
    (hsame : ∀ b ∈ s.live, b ≠ a → Same s.mem s.live m' live' b) :
    Refines r ⟨m', live'⟩ (Function.update S a M) where
  rest := R
  memory b hb := by
    rcases decEq b a with hne | rfl
    · have hb₀ := (hlive b hne).mp hb
      rw [Function.update_of_ne hne, (hsame b hb₀ hne).userMemory hb₀ hb]
      exact C.memory b hb₀
    · rw [Function.update_self]
      exact ha hb
  dead b hb := by
    rcases decEq b a with hne | rfl
    · rw [Function.update_of_ne hne]
      exact C.dead b (mt (hlive b hne).mpr hb)
    · rw [Function.update_self]
      exact hdead hb

/-- Every step of the address spaces is a step of the memories. -/
theorem step (C : Refines r s S) (h : Step s op s') :
    Refines r s' (op.effect.elim S (Memories.apply S)) := by
  have R := C.rest
  cases h with
  | @create pd m h =>
    obtain ⟨R', hnone⟩ := R.create h
    have hnew : pd ∉ s.live := by
      obtain ⟨free, I⟩ := R'
      exact (List.nodup_cons.mp I.nodup).1
    have hup := C.update (M := .empty) R' (fun b hb => List.mem_cons.trans (or_iff_right hb))
      (fun ha => userMemory_empty ha hnone) (fun _ => rfl) fun b hb _ => R.create_same h hb
    rwa [← C.dead pd hnew, Function.update_eq_self] at hup
  | @fault pd va m hpd hva hn h =>
    exact C.update (R.fault hpd hva hn h) (fun _ _ => Iff.rfl)
      (fun _ => (C.memory pd hpd) ▸ R.fault_userMemory hpd hva hn h) (absurd hpd) fun b _ hb =>
        R.fault_same hpd hva hb h
  | @fork pd child m hpd hc hn h =>
    have hnone := (no_page_iff hc).mp hn
    exact C.update (R.fork hc hnone h) (fun _ _ => Iff.rfl)
      (fun _ => (R.fork_userMemory hpd hc hnone h).trans (C.memory pd hpd)) (absurd hc)
      fun b _ hb => R.fork_same hpd hc hnone hb h
  | @exec pd hpd =>
    exact C.update (R.exec hpd) (fun _ _ => Iff.rfl)
      (fun _ => userMemory_empty hpd (R.exec_cleared hpd)) (fun _ => rfl)
      fun b _ hb => R.exec_same hpd hb
  | @destroy pd hpd =>
    have hnot : pd ∉ s.live.erase pd := by
      obtain ⟨free, I⟩ := R
      exact fun h => (I.nodup.mem_erase_iff.mp h).1 rfl
    exact C.update (R.destroy hpd) (fun b hb => List.mem_erase_of_ne hb) (fun ha => absurd ha hnot)
      (fun _ => rfl)
      fun b _ hb => R.destroy_same hpd hb
  | @store pd va x hpd hva hm =>
    exact C.update (R.store hpd hva hm) (fun _ _ => Iff.rfl)
      (fun _ => (C.memory pd hpd) ▸ R.store_userMemory hpd hva hm) (absurd hpd) fun b _ hb =>
        R.store_same hpd hva hb hm

end Refines

theorem history_snoc :
    history (ops ++ [op]) = op.effect.elim (history ops) (Memories.apply (history ops)) := by
  unfold history
  rw [List.filterMap_append]
  cases he : op.effect with
  | none =>
    simp only [List.filterMap_cons, List.filterMap_nil, he, List.append_nil]
    rfl
  | some e =>
    simp only [List.filterMap_cons, List.filterMap_nil, he]
    exact Memories.run_snoc

theorem history_store :
    history (ops ++ [.store pd va x]) pd = (history ops pd).store (cell va) x := by
  rw [history_snoc]
  exact Memories.apply_store

theorem history_fork : history (ops ++ [.fork pd child]) child = history ops pd := by
  rw [history_snoc]
  exact Memories.apply_copy

/-- What is done to others is no part of it. -/
theorem history_of_ne (hne : ∀ e, op.effect = some e → e.name ≠ a) :
    history (ops ++ [op]) a = history ops a := by
  rw [history_snoc]
  cases he : op.effect with
  | none => rfl
  | some e => exact Memories.apply_of_ne (hne e he)

/-- Every run refines the memories. -/
theorem run_refines {mem : UInt32 → Nat → UInt32} (h : Run Step (State.init r mem) ops s) :
    Refines r s (history ops) := by
  induction h with
  | nil => exact ⟨Rest.init r mem, fun a ha => absurd ha List.not_mem_nil, fun _ _ => rfl⟩
  | snoc _ hstep ih =>
    rw [history_snoc]
    exact ih.step hstep

/-- Fifteen frames. -/
def forkRegion : Region where
  start := 0x1000
  limit := 0x10000
  start_aligned := smallRegion.start_aligned
  limit_aligned := by decide
  start_pos := smallRegion.start_pos
  start_le := by decide
  limit_le := by decide

/-- The memory after a fault that maps a page. -/
def AddressSpace.PageFault.memory : AddressSpace.PageFault → Option PhysMem
  | .mapped m => some m
  | _ => none

/-- A parent stores 7 and forks; the memories after its construction, the fault and the fork. -/
def forkOnce : Option (UInt32 × UInt32 × PhysMem × PhysMem × PhysMem) := do
  let (pd, m₁) ← AddressSpace.create (PhysMem.init (fun _ _ => 5) 0x1000 0x10000)
  let m₂ ← (AddressSpace.handlePageFault m₁ pd 0x80000000).memory
  let (child, m₃) ← AddressSpace.create (AddressSpace.store m₂ pd 0x80000000 7)
  let m₄ ← AddressSpace.fork m₃ pd child
  some (pd, child, m₁, m₂, m₄)

set_option maxRecDepth 100000 in
theorem forkOnce_run :
    ∃ pd child s s', Run Step (State.init forkRegion fun _ _ => 5)
    [.create, .fault pd 0x80000000, .store pd 0x80000000 7, .create] s ∧
    Run Step s [.fork pd child, .store pd 0x80000000 9] s' ∧ pd ∈ s'.live ∧
    child ∈ s'.live ∧ child ≠ pd := by
  have hcheck :
      (forkOnce.map fun x => decide
      (x.2.1 ≠ x.1 ∧ ¬AddressSpace.Mapped x.2.2.1 x.1 0x80000000 ∧
      AddressSpace.Mapped x.2.2.2.1 x.1 0x80000000 ∧
        AddressSpace.Mapped x.2.2.2.2 x.1 0x80000000)) = some true := by
    decide +kernel
  obtain ⟨⟨pd, child, m₁, m₂, m₄⟩, hrun, hcheck⟩ := Option.map_eq_some_iff.mp hcheck
  obtain ⟨hne, hn, hm, hm'⟩ := of_decide_eq_true hcheck
  unfold forkOnce at hrun
  obtain ⟨⟨pd', m₁'⟩, h₁, hrun⟩ := Option.bind_eq_some_iff.mp hrun
  obtain ⟨m₂', h₂, hrun⟩ := Option.bind_eq_some_iff.mp hrun
  obtain ⟨⟨child', m₃⟩, h₃, hrun⟩ := Option.bind_eq_some_iff.mp hrun
  obtain ⟨m₄', h₄, hrun⟩ := Option.bind_eq_some_iff.mp hrun
  cases hrun
  have hfault : AddressSpace.handlePageFault m₁ pd 0x80000000 = .mapped m₂ := by
    cases he : AddressSpace.handlePageFault m₁ pd 0x80000000 with
    | mapped m =>
      rw [he] at h₂
      exact congrArg _ (Option.some.inj h₂)
    | kill | panic =>
      rw [he] at h₂
      cases h₂
  have hpd : pd ∈ [pd] := List.mem_singleton_self pd
  have r₁ : Run Step (State.init forkRegion fun _ _ => 5) [.create] ⟨m₁, [pd]⟩ :=
    .single (.create h₁)
  have r₂ := r₁.snoc (.fault hpd (by decide) hn hfault)
  have r₃ := r₂.snoc (.store (x := 7) hpd (by decide) hm)
  have r₄ := r₃.snoc (.create h₃)
  have hnone := (Rest.create (run_refines r₃).rest h₃).2
  have hlive : pd ∈ [child, pd] := List.mem_cons_of_mem _ hpd
  have f₁ : Run Step ⟨m₃, [child, pd]⟩ [.fork pd child] ⟨m₄, [child, pd]⟩ :=
    .single (.fork hlive List.mem_cons_self ((no_page_iff List.mem_cons_self).mpr hnone) h₄)
  exact ⟨pd, child, _, _, r₄, f₁.snoc (.store (x := 9) hlive (by decide) hm'), hlive,
    List.mem_cons_self, hne⟩

/-- The byte at an address as a byte of its cell. -/
theorem bytes_eq (ha : a ∈ live) (hva : 0x80000000 ≤ va) :
    AddressSpace.bytes m a va = byteOf ((AddressSpace.userMemory m a).word (cell va))
    (pageOffset va % 4) := by
  by_cases hm : AddressSpace.Mapped m a va
  · obtain ⟨f, hf⟩ := (mapped_iff ha (index0_user hva)).mp hm
    rw [hf.bytes ha hva, cell, hf.word ha]
  · have h0 := (AddressSpace.userMemory m a).zero (cell va) fun hp =>
      hm ((mapped_iff ha (index0_user hva)).mpr ((hasPage_iff ha).mp hp))
    rw [bytes_of_not_mapped hm, h0, byteOf_zero]

/-- What a live address space shows of the memories it refines. -/
theorem Refines.shows {S : UInt32 → UserMemory} (C : Refines r s S) (hpd : pd ∈ s.live)
    (hva : 0x80000000 ≤ va) :
    (AddressSpace.Mapped s.mem pd va ↔ (S pd).mapped (cell va).page) ∧
      AddressSpace.bytes s.mem pd va = byteOf ((S pd).word (cell va)) (pageOffset va % 4) := by
  rw [← C.memory pd hpd]
  exact ⟨(mapped_iff hpd (index0_user hva)).trans (hasPage_iff hpd).symm, bytes_eq hpd hva⟩

/-- The operations of `forkOnce`, and a store of the parent. -/
def forkOps (pd child : UInt32) : List Op :=
  [.create, .fault pd 0x80000000, .store pd 0x80000000 7, .create] ++
    [.fork pd child, .store pd 0x80000000 9]

theorem history_forkOps (hne : child ≠ pd) :
    (history (forkOps pd child) child).word (cell 0x80000000) = 7 ∧
    (history (forkOps pd child) pd).word (cell 0x80000000) = 9 := by
  let before : List Op := [.create, .fault pd 0x80000000, .store pd 0x80000000 7, .create]
  have hbefore :
      history before = history ([.create, .fault pd 0x80000000] ++ [.store pd 0x80000000 7]) := rfl
  have hops : forkOps pd child = before ++ [.fork pd child] ++ [.store pd 0x80000000 9] := rfl
  have hkeep : history (before ++ [.fork pd child] ++ [.store pd 0x80000000 9]) child =
      history (before ++ [.fork pd child]) child := by
    refine history_of_ne fun e he => ?_
    cases he
    exact hne.symm
  rw [hops, hkeep, history_fork, hbefore, history_store, history_store]
  exact ⟨Memory.store_word, Memory.store_word⟩

/-- **A program finds what the history says**: its own last store, what its parent had at `fork`, or
zeros. In every state of every run the mapping and the bytes of the user half of every live address
space are those of `history`, whatever was in the physical memory at the start and however frames
were reused. -/
theorem user_memory {mem : UInt32 → Nat → UInt32} (h : Run Step (State.init r mem) ops s)
    (hpd : pd ∈ s.live) (hva : 0x80000000 ≤ va) :
    (AddressSpace.Mapped s.mem pd va ↔ (history ops pd).mapped (cell va).page) ∧
      AddressSpace.bytes s.mem pd va = byteOf ((history ops pd).word (cell va))
      (pageOffset va % 4) :=
  (run_refines h).shows hpd hva

/-- The parent finds its own store, the child what the parent had before. -/
theorem user_memory_fork : ∃ (pd child : UInt32) (s : State), child ≠ pd ∧
    Run Step (State.init forkRegion fun _ _ => 5) (forkOps pd child) s ∧
    AddressSpace.bytes s.mem pd 0x80000000 = 9 ∧
    AddressSpace.bytes s.mem child 0x80000000 = 7 := by
  obtain ⟨pd, child, s, s', h, h', hpd, hc, hne⟩ := forkOnce_run
  have hrun : Run Step (State.init forkRegion fun _ _ => 5) (forkOps pd child) s' := h.trans h'
  obtain ⟨hchild, hparent⟩ := history_forkOps hne
  refine ⟨pd, child, s', hne, hrun, ?_, ?_⟩
  · rw [(user_memory hrun hpd (by decide)).2, hparent]
    rfl
  · rw [(user_memory hrun hc (by decide)).2, hchild]
    rfl

/-! ## `exec` and `fork` in a run -/

/-- The address space whose user half an operation changes. -/
def Op.space (op : Op) : Option UInt32 := op.effect.map Memory.Op.name

theorem history_append {ops' : List Op} :
    history (ops ++ ops') = Memories.run (history ops) (ops'.filterMap Op.effect) := by
  unfold history
  rw [List.filterMap_append, Memories.run_append]

theorem live_of_ne (h : Step s op s') (ha : a ∈ s.live) (hne : op.space ≠ some a) :
    a ∈ s'.live := by
  cases h with
  | create => exact List.mem_cons_of_mem _ ha
  | destroy => exact (List.mem_erase_of_ne fun he => hne (congrArg some he.symm)).mpr ha
  | fault | fork | exec | store => exact ha

/-- The operations on others keep an address space alive. -/
theorem live_of_run {ops' : List Op} (h : Run Step s ops' s') (ha : a ∈ s.live)
    (hne : ∀ op ∈ ops', op.space ≠ some a) : a ∈ s'.live := by
  induction h with
  | nil => exact ha
  | @snoc ops s₁ op s₂ _ hstep ih =>
    exact live_of_ne hstep (ih fun op hop => hne op (List.mem_append_left _ hop))
      (hne op (List.mem_append_right _ (List.mem_singleton_self op)))

/-- **No stale data after `exec`.** Until it stores itself, a program reads zeros, whatever the
others do and whichever frames it gets. -/
theorem exec_reads_zero {mem : UInt32 → Nat → UInt32} {ops' : List Op}
    (h : Run Step (State.init r mem) ops s) (h' : Run Step s (.exec pd :: ops') s')
    (hs : ∀ va x, .store pd va x ∉ ops') (hf : ∀ a, .fork a pd ∉ ops')
    (hpd : pd ∈ s'.live) (hva : 0x80000000 ≤ va) : AddressSpace.bytes s'.mem pd va = 0 := by
  have hclear (c : Cell) : (Memories.apply (history ops) (.clear pd) pd).word c = 0 := by
    rw [Memories.apply_clear]
    rfl
  have hstore (c : Cell) (v : UInt32) : .store pd c v ∉ ops'.filterMap Op.effect := by
    intro hmem
    obtain ⟨op, hop, he⟩ := List.mem_filterMap.mp hmem
    cases op with
    | store pd' va' x' =>
      cases he
      exact hs va' v hop
    | _ => cases he
  have hcopy (a : UInt32) : .copy a pd ∉ ops'.filterMap Op.effect := by
    intro hmem
    obtain ⟨op, hop, he⟩ := List.mem_filterMap.mp hmem
    cases op with
    | fork a' child =>
      cases he
      exact hf a hop
    | _ => cases he
  have h0 := Memories.run_word_zero hclear hstore hcopy (cell va)
  rw [((run_refines (h.trans h')).shows hpd hva).2, history_append]
  exact (congrArg (byteOf · _) h0).trans byteOf_zero

/-- The child forgets the 7 of its parent. -/
theorem exec_reads_zero_fork :
    ∃ (pd child : UInt32) (s s' : State), Run Step (State.init forkRegion fun _ _ => 5)
    (forkOps pd child) s ∧ AddressSpace.bytes s.mem child 0x80000000 = 7 ∧
    Run Step s [.exec child] s' ∧ AddressSpace.bytes s'.mem child 0x80000000 = 0 := by
  obtain ⟨pd, child, s, s', h, h', hpd, hc, hne⟩ := forkOnce_run
  have hrun : Run Step (State.init forkRegion fun _ _ => 5) (forkOps pd child) s' := h.trans h'
  have hexec : Run Step s' [.exec child] ⟨AddressSpace.exec s'.mem child, s'.live⟩ :=
    .single (.exec hc)
  refine ⟨pd, child, s', _, hrun, ?_, hexec, ?_⟩
  · rw [((run_refines hrun).shows hc (by decide)).2, (history_forkOps hne).1]
    rfl
  · exact exec_reads_zero hrun hexec nofun nofun hc (by decide)

/-- **`fork` copies, and then the two are apart.** As long as the operations are on others, each of
parent and child finds what the parent had at the `fork`. -/
theorem fork_isolated {mem : UInt32 → Nat → UInt32} {ops' : List Op}
    (h : Run Step (State.init r mem) ops s) (h' : Run Step s (.fork pd child :: ops') s')
    (ha : a = pd ∨ a = child) (hne : ∀ op ∈ ops', op.space ≠ some a)
    (hva : 0x80000000 ≤ va) :
    a ∈ s'.live ∧ (AddressSpace.Mapped s'.mem a va ↔ AddressSpace.Mapped s.mem pd va) ∧
      AddressSpace.bytes s'.mem a va = AddressSpace.bytes s.mem pd va := by
  obtain ⟨s₁, hfork, hrest⟩ := h'.uncons
  have hlive : pd ∈ s.live ∧ child ∈ s.live ∧ s₁.live = s.live := by
    cases hfork with
    | fork hpd hc hn hm => exact ⟨hpd, hc, rfl⟩
  obtain ⟨hpd, hc, hlive₁⟩ := hlive
  have ha₁ : a ∈ s₁.live := by
    rw [hlive₁]
    exact ha.elim (fun he => he ▸ hpd) fun he => he ▸ hc
  have ha' := live_of_run hrest ha₁ hne
  have heff : ∀ e ∈ ops'.filterMap Op.effect, e.name ≠ a := by
    intro e hmem he
    obtain ⟨op, hop, heff⟩ := List.mem_filterMap.mp hmem
    exact hne op hop (by rw [Op.space, heff, ← he]; rfl)
  have hcopy : Memories.apply (history ops) (.copy pd child) a = history ops pd := by
    rcases decEq a child with hne | rfl
    · rw [Memories.apply_of_ne (Ne.symm hne), ha.resolve_right hne]
    · exact Memories.apply_copy
  have hhist : history (ops ++ .fork pd child :: ops') a = history ops pd := by
    rw [history_append]
    exact (Memories.run_of_ne heff).trans hcopy
  obtain ⟨hm', hb'⟩ := (run_refines (h.trans h')).shows ha' hva
  obtain ⟨hm, hb⟩ := (run_refines h).shows hpd hva
  rw [hhist] at hm' hb'
  exact ⟨ha', hm'.trans hm.symm, hb'.trans hb.symm⟩

/-- The parent stores after the `fork`, and the child finds what was there before. -/
theorem fork_isolated_store :
    ∃ (pd child : UInt32) (s s' : State), child ≠ pd ∧
    Run Step s [.fork pd child, .store pd 0x80000000 9] s' ∧
    AddressSpace.bytes s'.mem child 0x80000000 = AddressSpace.bytes s.mem pd 0x80000000 := by
  obtain ⟨pd, child, s, s', h, h', hpd, hc, hne⟩ := forkOnce_run
  refine ⟨pd, child, s, s', hne, h',
    (fork_isolated h h' (.inr rfl) (fun op hop => ?_) (by decide)).2.2⟩
  obtain rfl := List.mem_singleton.mp hop
  exact fun he => hne (Option.some.inj he).symm

end K439.Vmm
