import K439.Lib.Run
import K439.Vmm.Operations

/-!
# Runs over many address spaces

The operations in any order, over any number of address spaces, from `PhysMem::init` on. In every
state reached the ledger of frames is exact (`frames_owned`).
-/

namespace K439.Vmm

/-- The physical memory and the address spaces that were constructed and not destroyed. -/
structure State where
  mem : PhysMem
  live : List UInt32

inductive Op
  | create
  | fault (pd va : UInt32)
  | fork (pd child : UInt32)
  | exec (pd : UInt32)
  | destroy (pd : UInt32)
  /-- a store of a user program -/
  | store (pd va x : UInt32)

/-- A call that returns. `fork` has one caller, `Child::Child`, which passes the address space it
has just constructed (`Child.create_run`). -/
inductive Step (s : State) : Op → State → Prop
  | create : AddressSpace.create s.mem = some (pd, m) → Step s .create ⟨m, pd :: s.live⟩
  | fault : pd ∈ s.live → 0x80000000 ≤ va → ¬AddressSpace.Mapped s.mem pd va →
      AddressSpace.handlePageFault s.mem pd va = .mapped m → Step s (.fault pd va) ⟨m, s.live⟩
  | fork : pd ∈ s.live → child ∈ s.live →
      (∀ va, 0x80000000 ≤ va → ¬AddressSpace.Mapped s.mem child va) →
      AddressSpace.fork s.mem pd child = some m → Step s (.fork pd child) ⟨m, s.live⟩
  | exec : pd ∈ s.live → Step s (.exec pd) ⟨AddressSpace.exec s.mem pd, s.live⟩
  | destroy : pd ∈ s.live →
      Step s (.destroy pd) ⟨AddressSpace.destroy s.mem pd, s.live.erase pd⟩
  | store : pd ∈ s.live → 0x80000000 ≤ va → AddressSpace.Mapped s.mem pd va →
      Step s (.store pd va x) ⟨AddressSpace.store s.mem pd va x, s.live⟩

def State.init (r : Region) (mem : UInt32 → Nat → UInt32) : State :=
  ⟨PhysMem.init mem r.start r.limit, []⟩

variable {r : Region} {s s' : State} {pd child va x : UInt32} {m : PhysMem}

theorem page_vaOf {live : List UInt32} {a f : UInt32} {i j : Nat} (h : Page m live a i j f) :
    ∃ va, 0x80000000 ≤ va ∧ index0 va = i ∧ index1 va = j := by
  obtain ⟨hi, hj, -, t, ht, -⟩ := h
  refine ⟨AddressSpace.vaOf i j, ?_, index_vaOf ht.2.2.1 hj⟩
  rw [UInt32.le_iff_toNat_le, vaOf_toNat ht.2.2.1 hj,
    show (0x80000000 : UInt32).toNat = 0x80000000 from rfl]
  omega

/-- The user half is empty if no address in it is mapped. -/
theorem no_page_iff {live : List UInt32} {a : UInt32} (ha : a ∈ live) :
    (∀ va, 0x80000000 ≤ va → ¬AddressSpace.Mapped m a va) ↔
    ∀ i j f, ¬Page m live a i j f := by
  constructor
  · intro h i j f hf
    obtain ⟨va, hva, rfl, rfl⟩ := page_vaOf hf
    exact h va hva ((mapped_iff ha (index0_user hva)).mpr ⟨f, hf⟩)
  · intro h va hva hm
    obtain ⟨f, hf⟩ := (mapped_iff ha (index0_user hva)).mp hm
    exact h _ _ f hf

theorem Page.translate {live : List UInt32} {f : UInt32}
    (h : Page m live pd (index0 va) (index1 va) f) : AddressSpace.translate m pd va = f := by
  obtain ⟨-, -, -, t, ht, hf⟩ := h
  rw [AddressSpace.translate, ht.2.2.2.2, hf.2]

theorem shiftRight_eq {va va' : UInt32} (h0 : index0 va = index0 va')
    (h1 : index1 va = index1 va') : va >>> 12 = va' >>> 12 := by
  rw [index0_toNat, index0_toNat] at h0
  rw [index1_toNat, index1_toNat] at h1
  apply UInt32.toNat_inj.mp
  simp only [UInt32.toNat_shiftRight, Nat.shiftRight_eq_div_pow]
  simp
  omega

theorem Rest.store {live : List UInt32} (R : Rest r live m) (ha : pd ∈ live)
    (hva : 0x80000000 ≤ va) (hm : AddressSpace.Mapped m pd va) :
    Rest r live (AddressSpace.store m pd va x) := by
  obtain ⟨free, I⟩ := R
  obtain ⟨f, hf⟩ := (mapped_iff ha (index0_user hva)).mp hm
  have hown : Own m (Ghost.rest live free) (.page pd (index0 va) (index1 va)) f := hf
  rw [AddressSpace.store, hf.translate]
  exact ⟨free, I.scribble hown nofun (fun _ => nofun) (fun _ _ _ => nofun) _⟩

/-- Every step keeps the ledger. -/
theorem Rest.step {op : Op} (R : Rest r s.live s.mem) (h : Step s op s') :
    Rest r s'.live s'.mem := by
  cases h with
  | create h => exact (R.create h).1
  | fault hpd hva hn h => exact R.fault hpd hva hn h
  | fork hpd hc hn h => exact R.fork hc ((no_page_iff hc).mp hn) h
  | exec hpd =>
    dsimp only
    exact R.exec hpd
  | destroy hpd =>
    dsimp only
    exact R.destroy hpd
  | store hpd hva hm => exact R.store hpd hva hm

/-- `Child::Child` is a construction and a fork into the new address space. -/
theorem Child.create_run (R : Rest r s.live s.mem) (hpd : pd ∈ s.live)
    (h : Child.create s.mem pd = some (child, m)) :
    Run Step s [.create, .fork pd child] ⟨m, child :: s.live⟩ := by
  obtain ⟨⟨c, m₁⟩, h₁, h⟩ := Option.bind_eq_some_iff.mp h
  obtain ⟨m₂, h₂, h⟩ := Option.bind_eq_some_iff.mp h
  cases h
  have hc : child ∈ child :: s.live := List.mem_cons_self
  obtain ⟨-, hnone⟩ := R.create h₁
  have hfork : Step ⟨m₁, child :: s.live⟩ (.fork pd child) ⟨m, child :: s.live⟩ :=
    .fork (List.mem_cons_of_mem _ hpd) hc ((no_page_iff hc).mpr hnone) h₂
  exact (Run.single (.create h₁)).snoc hfork

/-- Who owns the frames in a state. -/
structure FramesOwned (r : Region) (s : State) : Prop where
  nodup : s.live.Nodup
  /-- The free list ends, without repetition, and every frame of `[start, avail)` is exactly one
  of: on it, the directory of one live address space, a table of one, a page of one. -/
  owned : ∃ free, Linked (fun p => s.mem.mem p 0) 0 s.mem.firstFree free ∧ free.Nodup ∧
    Exact (Own s.mem (Ghost.rest s.live free)) (Handed r s.mem) ∧
      (s.live = [] → ∀ f, Handed r s.mem f → f ∈ free)
  /-- Mapped user pages that share a frame are the same page. -/
  apart : ∀ pd ∈ s.live, ∀ pd' ∈ s.live, ∀ va va', 0x80000000 ≤ va →
    0x80000000 ≤ va' →
    AddressSpace.Mapped s.mem pd va → AddressSpace.Mapped s.mem pd' va' →
    AddressSpace.translate s.mem pd va = AddressSpace.translate s.mem pd' va' →
    pd = pd' ∧ va >>> 12 = va' >>> 12
  /-- No frame is freed twice, or handed out twice. -/
  legal : Legal s.mem.calls

theorem Rest.framesOwned (R : Rest r s.live s.mem) : FramesOwned r s := by
  obtain ⟨free, I⟩ := R
  refine ⟨I.nodup, ⟨free, I.chain, I.chain.nodup, I.exact, fun hl f hf => ?_⟩, ?_, I.legal⟩
  · obtain ⟨slot, hs⟩ := I.exact.total f hf
    cases slot with
    | free => exact hs
    | held => exact hs.elim
    | dir a => rw [Own, Ghost.rest, hl] at hs; cases hs.1
    | table a i => rw [Own, OwnTable, Ghost.rest, hl] at hs; cases hs.1
    | page a i j =>
      obtain ⟨-, -, -, t, ht, -⟩ := hs
      rw [OwnTable, Ghost.rest, hl] at ht
      cases ht.1
  · intro pd hpd pd' hpd' va va' hva hva' hm hm' he
    have hown {a va} (ha : a ∈ s.live) (hva : 0x80000000 ≤ va)
        (hm : AddressSpace.Mapped s.mem a va) :
        Own s.mem (Ghost.rest s.live free) (.page a (index0 va) (index1 va))
          (AddressSpace.translate s.mem a va) := by
      obtain ⟨f, hf⟩ := (mapped_iff ha (index0_user hva)).mp hm
      rwa [hf.translate]
    have hs := I.exact.unique _ _ _ (hown hpd hva hm) (he ▸ hown hpd' hva' hm')
    rw [Slot.page.injEq] at hs
    exact ⟨hs.1, shiftRight_eq hs.2.1 hs.2.2⟩

/-- **Frame ownership.** -/
theorem frames_owned {mem : UInt32 → Nat → UInt32} {ops : List Op}
    (h : Run Step (State.init r mem) ops s) : FramesOwned r s :=
  Rest.framesOwned (h.inv (I := fun s => Rest r s.live s.mem) (fun _ _ _ R h => R.step h)
    (Rest.init r mem))

/-- Seven frames; `kernelMain` has those from `0x200000` to `0x400000`. -/
def smallRegion : Region where
  start := 0x1000
  limit := 0x8000
  start_aligned := by decide
  limit_aligned := by decide
  start_pos := by decide
  start_le := by decide
  limit_le := by decide

/-- An address space is constructed, gets a page and is destroyed. -/
theorem frames_owned_smallRegion : ∃ s,
    Run Step (State.init smallRegion fun _ _ => 0)
      [.create, .fault 0x1000 0x80000000, .destroy 0x1000] s ∧
    s.live = [] ∧ FramesOwned smallRegion s := by
  have hcheck : (match AddressSpace.create (PhysMem.init (fun _ _ => 0) 0x1000 0x8000) with
      | some (pd, m) => decide (pd = 0x1000) && !decide (AddressSpace.Mapped m pd 0x80000000) &&
        (match AddressSpace.handlePageFault m pd 0x80000000 with
          | .mapped _ => true
          | _ => false)
      | none => false) = true := by decide +kernel
  split at hcheck
  next pd m h =>
    simp only [Bool.and_eq_true, decide_eq_true_eq, Bool.not_eq_true', decide_eq_false_iff_not]
      at hcheck
    obtain ⟨⟨rfl, hn⟩, hf⟩ := hcheck
    split at hf
    next m' hm =>
      have h₁ := Run.single (Step.create (s := State.init smallRegion fun _ _ => 0) h)
      have h₂ := h₁.snoc (.fault List.mem_cons_self (by decide) hn hm)
      have h₃ := h₂.snoc (.destroy List.mem_cons_self)
      exact ⟨_, h₃, rfl, frames_owned h₃⟩
    · cases hf
  · cases hcheck

end K439.Vmm
