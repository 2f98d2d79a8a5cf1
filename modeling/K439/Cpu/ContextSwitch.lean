import Mathlib.Data.UInt
import Mathlib.Logic.Function.Basic
import K439.Lib.Run

/-!
# Context switches

`contextSwitch` of `kernel/machine.S`, an instruction at a time, and the first stack that the
constructor of a process makes. Of the flags only those that `popf` loads are followed. A word is
stored at its address; the stacks are apart from each other and from the members `kesp`, and the
code between two switches leaves both alone for the processes that do not run.
-/

namespace K439.Cpu

open Function (update)

inductive Reg
  | eax
  | ecx
  | edx
  | ebx
  | esi
  | edi
  | ebp
  | esp
  deriving DecidableEq

structure Machine where
  reg : Reg → UInt32
  eip : UInt32
  eflags : UInt32
  /-- the word at an address -/
  mem : UInt32 → UInt32

inductive Instr
  /-- `mov d(%esp),%r` -/
  | load (d : UInt32) (r : Reg)
  /-- `mov %r,(%a)` -/
  | store (r a : Reg)
  | mov (r r' : Reg)
  | push (r : Reg)
  | pop (r : Reg)
  | popf
  | ret

namespace Machine

variable (m : Machine)

def set (r : Reg) (v : UInt32) : Machine := { m with reg := update m.reg r v }

def write (a v : UInt32) : Machine := { m with mem := update m.mem a v }

def exec : Instr → Machine
  | .load d r => m.set r (m.mem (m.reg .esp + d))
  | .store r a => m.write (m.reg a) (m.reg r)
  | .mov r r' => m.set r' (m.reg r)
  | .push r => (m.set .esp (m.reg .esp - 4)).write (m.reg .esp - 4) (m.reg r)
  | .pop r => (m.set .esp (m.reg .esp + 4)).set r (m.mem (m.reg .esp))
  | .popf => { m.set .esp (m.reg .esp + 4) with eflags := m.mem (m.reg .esp) }
  | .ret => { m.set .esp (m.reg .esp + 4) with eip := m.mem (m.reg .esp) }

def arguments : List Instr := [.load 4 .eax, .load 8 .ecx, .load 12 .edx]

/-- What `jz activateNext` jumps over. -/
def saveCurrent : List Instr := [.push .ebx, .push .esi, .push .edi, .push .ebp, .store .esp .eax]

def activateNext : List Instr :=
  [.mov .ecx .esp, .pop .ebp, .pop .edi, .pop .esi, .pop .ebx, .push .edx, .popf, .ret]

def contextSwitch : Machine :=
  let m := arguments.foldl exec m
  let m := if m.reg .eax = 0 then m else saveCurrent.foldl exec m
  activateNext.foldl exec m

/-- The stack of a new process, which ends at `top`, and its `kesp`. -/
def construct (runProcess kesp top : UInt32) : Machine :=
  let m := (m.write (top - 4) 0).write (top - 8) runProcess
  let m := (((m.write (top - 12) 0).write (top - 16) 0).write (top - 20) 0).write (top - 24) 0
  m.write kesp (top - 24)

end Machine

/-- The registers that a function must keep, the address it returns to and the stack pointer
then. -/
structure Frame where
  ebx : UInt32
  esi : UInt32
  edi : UInt32
  ebp : UInt32
  eip : UInt32
  esp : UInt32

/-- The frame of the function that runs, which has just been called. -/
def Machine.frame (m : Machine) : Frame where
  ebx := m.reg .ebx
  esi := m.reg .esi
  edi := m.reg .edi
  ebp := m.reg .ebp
  eip := m.mem (m.reg .esp)
  esp := m.reg .esp + 4

/-- With this frame `runProcess` is entered. -/
def firstFrame (runProcess top : UInt32) : Frame where
  ebx := 0
  esi := 0
  edi := 0
  ebp := 0
  eip := runProcess
  esp := top - 4

/-- The function has returned. -/
structure Machine.Returned (m : Machine) (F : Frame) : Prop where
  ebx : m.reg .ebx = F.ebx
  esi : m.reg .esi = F.esi
  edi : m.reg .edi = F.edi
  ebp : m.reg .ebp = F.ebp
  eip : m.eip = F.eip
  esp : m.reg .esp = F.esp

/-- The frame is on the stack from `e` on. -/
structure Saved (mem : UInt32 → UInt32) (e : UInt32) (F : Frame) : Prop where
  ebp : mem e = F.ebp
  edi : mem (e + 4) = F.edi
  esi : mem (e + 8) = F.esi
  ebx : mem (e + 12) = F.ebx
  eip : mem (e + 16) = F.eip
  esp : e + 20 = F.esp

variable {m : Machine} {e : UInt32} {F : Frame}

theorem activateNext_returns (S : Saved m.mem (m.reg .ecx) F) :
    (Machine.activateNext.foldl Machine.exec m).Returned F ∧
      (Machine.activateNext.foldl Machine.exec m).eflags = m.reg .edx ∧
      (Machine.activateNext.foldl Machine.exec m).mem = update m.mem (m.reg .ecx + 12)
      (m.reg .edx) := by
  have hsub : m.reg .ecx + 16 - 4 = m.reg .ecx + 12 := add_sub_assoc ..
  refine ⟨⟨?_, ?_, ?_, ?_, ?_, ?_⟩, ?_, ?_⟩ <;>
    simp [Machine.activateNext, Machine.exec, Machine.set, Machine.write, add_assoc, S.ebp, S.edi,
      S.esi, S.ebx, S.eip, S.esp, hsub]

/-- The words of a frame on the stack, from its address on. -/
def frameWords : List UInt32 := [0, 4, 8, 12, 16]

theorem forall_frameWords {Q : UInt32 → Prop} :
    (∀ k ∈ frameWords, Q k) ↔ Q 0 ∧ Q 4 ∧ Q 8 ∧ Q 12 ∧ Q 16 := by
  simp [frameWords]

theorem saveCurrent_saves (he : m.reg .esp = e + 16)
    (hk : ∀ k ∈ frameWords, m.reg .eax ≠ e + k) :
    let m' := Machine.saveCurrent.foldl Machine.exec m
    m'.reg .ecx = m.reg .ecx ∧ m'.reg .edx = m.reg .edx ∧ m'.mem (m.reg .eax) = e ∧
      Saved m'.mem e m.frame ∧
      ∀ a, a ≠ m.reg .eax → (∀ k ∈ frameWords, a ≠ e + k) → m'.mem a = m.mem a := by
  have h12 : e + 16 - 4 = e + 12 := add_sub_assoc ..
  have h8 : e + 12 - 4 = e + 8 := add_sub_assoc ..
  have h4 : e + 8 - 4 = e + 4 := add_sub_assoc ..
  have h0 : e + 4 - 4 = e := add_sub_cancel_right ..
  simp only [forall_frameWords, add_zero] at hk
  obtain ⟨k0, k4, k8, k12, k16⟩ := hk
  have hmem : (Machine.saveCurrent.foldl Machine.exec m).mem =
      update (update (update (update (update m.mem
      (e + 12) (m.reg .ebx)) (e + 8) (m.reg .esi)) (e + 4) (m.reg .edi)) e (m.reg .ebp))
        (m.reg .eax) e := by
    simp [Machine.saveCurrent, Machine.exec, Machine.set, Machine.write, he, h12, h8, h4, h0]
  refine ⟨?_, ?_, ?_, ⟨?_, ?_, ?_, ?_, ?_, ?_⟩, fun a ha hw => ?_⟩
  · simp [Machine.saveCurrent, Machine.exec, Machine.set, Machine.write]
  · simp [Machine.saveCurrent, Machine.exec, Machine.set, Machine.write]
  · rw [hmem, Function.update_self]
  · simp [hmem, k0.symm, Machine.frame]
  · simp [hmem, k4.symm, Machine.frame]
  · simp [hmem, k8.symm, Machine.frame]
  · simp [hmem, k12.symm, Machine.frame]
  · simp [hmem, k16.symm, Machine.frame, he]
  · simp [Machine.frame, he, add_assoc]
  · simp only [forall_frameWords, add_zero] at hw
    obtain ⟨w0, w4, w8, w12, -⟩ := hw
    simp [hmem, Function.update_of_ne, ha, w0, w4, w8, w12]

/-- The words that the constructor puts on a stack, from the `kesp` of the process on. -/
def firstWords : List UInt32 := [0, 4, 8, 12, 16, 20]

theorem forall_firstWords {Q : UInt32 → Prop} :
    (∀ k ∈ firstWords, Q k) ↔ Q 0 ∧ Q 4 ∧ Q 8 ∧ Q 12 ∧ Q 16 ∧ Q 20 := by
  simp [firstWords]

theorem construct_saves (runProcess : UInt32) {kesp top : UInt32} (he : top = e + 24)
    (hk : ∀ k ∈ firstWords, kesp ≠ e + k) :
    let m' := m.construct runProcess kesp top
    m'.mem kesp = e ∧ Saved m'.mem e (firstFrame runProcess top) ∧
      ∀ a, a ≠ kesp → (∀ k ∈ firstWords, a ≠ e + k) → m'.mem a = m.mem a := by
  have hsub (a b : UInt32) : e + a - b = e + (a - b) := add_sub_assoc ..
  simp only [forall_firstWords, add_zero] at hk
  obtain ⟨k0, k4, k8, k12, k16, -⟩ := hk
  have hmem : (m.construct runProcess kesp top).mem =
      update (update (update (update (update (update (update m.mem
      (e + 20) 0) (e + 16) runProcess) (e + 12) 0) (e + 8) 0) (e + 4) 0) e 0) kesp e := by
    simp [Machine.construct, Machine.write, he, hsub]
  refine ⟨?_, ⟨?_, ?_, ?_, ?_, ?_, ?_⟩, fun a ha hw => ?_⟩
  · rw [hmem, Function.update_self]
  · simp [hmem, k0.symm, firstFrame]
  · simp [hmem, k4.symm, firstFrame]
  · simp [hmem, k8.symm, firstFrame]
  · simp [hmem, k12.symm, firstFrame]
  · simp [hmem, k16.symm, firstFrame]
  · simp [firstFrame, he, hsub]
  · simp only [forall_firstWords, add_zero] at hw
    obtain ⟨w0, w4, w8, w12, w16, w20⟩ := hw
    simp [hmem, Function.update_of_ne, ha, w0, w4, w8, w12, w16, w20]

/-! ## Processes -/

/-- Where the stacks and the members `kesp` of processes are. -/
structure Layout (P : Type) where
  stack : P → UInt32 → Prop
  kesp : P → UInt32
  apart : ∀ p q a, stack p a → stack q a → p = q
  kesp_stack : ∀ p q, ¬stack q (kesp p)
  kesp_inj : ∀ p q, kesp p = kesp q → p = q
  kesp_ne_zero : ∀ p, kesp p ≠ 0

/-- The processor, and what the processes that do not run shall find when they do. -/
structure World (P : Type) where
  machine : Machine
  current : Option P
  frames : P → Option Frame

inductive Move (P : Type)
  /-- the constructor of `Process` -/
  | construct (p : P)
  /-- any code of the current process -/
  | run
  /-- `dispatch` calls `contextSwitch` -/
  | switch (prev : Option P) (next : P) (eflags : UInt32)

variable {P : Type} {L : Layout P} {runProcess top flags eflags : UInt32}
  {w w' w₀ w₁ w₂ w₃ : World P} {p q next : P}
  {prev : Option P} {mem mem' : UInt32 → UInt32} {move : Move P} {before between : List (Move P)}

/-- What the frame of a process is made of is apart from the stack and the `kesp` of another. -/
theorem Layout.beside (L : Layout P) {a b : UInt32} (hqp : q ≠ p)
    (ha : L.stack q a ∨ a = L.kesp q) (hb : L.stack p b ∨ b = L.kesp p) : a ≠ b := by
  rintro rfl
  rcases ha with ha | rfl
  · rcases hb with hb | rfl
    · exact hqp (L.apart q p a ha hb)
    · exact L.kesp_stack p q ha
  · rcases hb with hb | hb
    · exact L.kesp_stack q p hb
    · exact hqp (L.kesp_inj q p hb)

/-- What `contextSwitch` is called with. -/
structure Called (L : Layout P) (w : World P) (prev : Option P) (next : P)
    (flags : UInt32) : Prop where
  running : ∀ p, prev = some p → w.current = some p
  currentESP : w.machine.mem (w.machine.reg .esp + 4) = prev.elim 0 L.kesp
  nextESP : w.machine.mem (w.machine.reg .esp + 8) = w.machine.mem (L.kesp next)
  eflags : w.machine.mem (w.machine.reg .esp + 12) = flags
  room : ∀ p, prev = some p → ∀ k ∈ frameWords, L.stack p (w.machine.reg .esp - k)

/-- The frame of `p` is where its `kesp` points, on its stack. -/
def Resumable (L : Layout P) (mem : UInt32 → UInt32) (p : P) (F : Frame) : Prop :=
  Saved mem (mem (L.kesp p)) F ∧ ∀ k ∈ frameWords, L.stack p (mem (L.kesp p) + k)

structure Inv (L : Layout P) (w : World P) : Prop where
  current : ∀ p, w.current = some p → w.frames p = none
  resumable : ∀ p F, w.frames p = some F → Resumable L w.machine.mem p F

theorem Resumable.congr (R : Resumable L mem p F)
    (h : ∀ a, L.stack p a ∨ a = L.kesp p → mem' a = mem a) : Resumable L mem' p F := by
  obtain ⟨S, hs⟩ := R
  have hk := h (L.kesp p) (.inr rfl)
  rw [Resumable, hk]
  have hw : ∀ k ∈ frameWords, mem' (mem (L.kesp p) + k) = mem (mem (L.kesp p) + k) :=
    fun k hk => h _ (.inl (hs k hk))
  refine ⟨?_, hs⟩
  simp only [forall_frameWords, add_zero] at hw
  obtain ⟨w0, w4, w8, w12, w16⟩ := hw
  exact ⟨w0.trans S.ebp, w4.trans S.edi, w8.trans S.esi, w12.trans S.ebx,
    w16.trans S.eip, S.esp⟩

theorem arguments_loads (m : Machine) :
    let m' := Machine.arguments.foldl Machine.exec m
    m'.mem = m.mem ∧ m'.reg .eax = m.mem (m.reg .esp + 4) ∧
      m'.reg .ecx = m.mem (m.reg .esp + 8) ∧
      m'.reg .edx = m.mem (m.reg .esp + 12) ∧ m'.reg .esp = m.reg .esp ∧
        m'.frame = m.frame := by
  refine ⟨?_, ?_, ?_, ?_, ?_, ?_⟩ <;>
    simp [Machine.arguments, Machine.exec, Machine.set, Machine.frame]

/-- The current process is saved, and the others are left alone. -/
theorem Called.save (C : Called L w prev next flags) (I : Inv L w) :
    let m := Machine.arguments.foldl Machine.exec w.machine
    let m' := if m.reg .eax = 0 then m else Machine.saveCurrent.foldl Machine.exec m
    m'.reg .ecx = w.machine.mem (L.kesp next) ∧ m'.reg .edx = flags ∧
      (∀ q G, w.frames q = some G → Resumable L m'.mem q G ∧
        m'.mem (L.kesp q) = w.machine.mem (L.kesp q)) ∧
      ∀ p, prev = some p → Resumable L m'.mem p w.machine.frame := by
  obtain ⟨hmem, heax, hecx, hedx, hesp, hframe⟩ := arguments_loads w.machine
  generalize Machine.arguments.foldl Machine.exec w.machine = m at *
  have hroom := C.room
  rw [C.currentESP] at heax
  rw [C.nextESP] at hecx
  rw [C.eflags] at hedx
  cases prev with
  | none =>
    replace heax : m.reg .eax = 0 := heax
    dsimp only
    rw [if_pos heax]
    refine ⟨hecx, hedx, fun q G hq => ?_, by simp⟩
    rw [hmem]
    exact ⟨I.resumable q G hq, rfl⟩
  | some p =>
    replace heax : m.reg .eax = L.kesp p := heax
    dsimp only
    rw [if_neg (heax ▸ L.kesp_ne_zero p)]
    obtain ⟨e, he⟩ : ∃ e, m.reg .esp = e + 16 := ⟨_, (sub_add_cancel ..).symm⟩
    have hcells : ∀ k ∈ frameWords, L.stack p (e + k) := by
      have hp := hroom p rfl
      rw [← hesp, he] at hp
      simp only [forall_frameWords, sub_zero, add_zero, add_sub_assoc] at hp ⊢
      obtain ⟨h0, h4, h8, h12, h16⟩ := hp
      exact ⟨(add_zero e ▸ h16 : _), h12, h8, h4, h0⟩
    have hkesp : ∀ k ∈ frameWords, m.reg .eax ≠ e + k := by
      intro k hk hc
      exact L.kesp_stack p p (heax ▸ hc ▸ hcells k hk)
    obtain ⟨hecx', hedx', hcell, hsaved, hrest⟩ := saveCurrent_saves he hkesp
    rw [heax] at hcell hrest
    rw [hframe] at hsaved
    have hkeep : ∀ q a, q ≠ p → L.stack q a ∨ a = L.kesp q →
        (Machine.saveCurrent.foldl Machine.exec m).mem a = w.machine.mem a := by
      intro q a hqp ha
      rw [← hmem]
      exact hrest a (L.beside hqp ha (.inr rfl)) fun k hk => L.beside hqp ha (.inl (hcells k hk))
    refine ⟨hecx'.trans hecx, hedx'.trans hedx, fun q G hq => ?_, fun p' hp => ?_⟩
    · have hqp : q ≠ p := by
        rintro rfl
        rw [I.current q (C.running q rfl)] at hq
        cases hq
      exact ⟨(I.resumable q G hq).congr fun a ha => hkeep q a hqp ha, hkeep q _ hqp (.inr rfl)⟩
    · obtain rfl := Option.some.inj hp
      rw [Resumable, hcell]
      exact ⟨hsaved, hcells⟩

/-- A switch: the next process returns, and the frames of the others are kept. -/
theorem Called.switch (C : Called L w prev next flags) (I : Inv L w)
    (hnext : w.frames next = some F) :
    w.machine.contextSwitch.Returned F ∧ w.machine.contextSwitch.eflags = flags ∧
      (∀ q G, q ≠ next → w.frames q = some G →
        Resumable L w.machine.contextSwitch.mem q G) ∧
      ∀ p, prev = some p → Resumable L w.machine.contextSwitch.mem p w.machine.frame := by
  obtain ⟨hecx, hedx, hothers, hprev⟩ := C.save I
  unfold Machine.contextSwitch
  dsimp only at hecx hedx hothers hprev ⊢
  generalize (if (Machine.arguments.foldl Machine.exec w.machine).reg .eax = 0 then
    Machine.arguments.foldl Machine.exec w.machine else
    Machine.saveCurrent.foldl Machine.exec (Machine.arguments.foldl Machine.exec w.machine)) =
      m at *
  obtain ⟨⟨S, hs⟩, hk⟩ := hothers next F hnext
  rw [hk, ← hecx] at S hs
  obtain ⟨hret, hflags, hmem⟩ := activateNext_returns S
  have hkeep {q : P} {G : Frame} (hq : q ≠ next) (R : Resumable L m.mem q G) :
      Resumable L (Machine.activateNext.foldl Machine.exec m).mem q G := by
    rw [hmem]
    exact R.congr fun a ha => Function.update_of_ne (L.beside hq ha (.inl (hs 12 (by decide)))) ..
  refine ⟨hret, hflags.trans hedx, fun q G hq hG => hkeep hq (hothers q G hG).1,
    fun p hp => hkeep ?_ (hprev p hp)⟩
  rintro rfl
  rw [I.current p (C.running p hp)] at hnext
  cases hnext

theorem Inv.start (h : ∀ p, w.frames p = none) : Inv L w :=
  ⟨fun p _ => h p, fun p F hF => by simp [h p] at hF⟩

variable [DecidableEq P]

variable (L runProcess) in
inductive Step (w : World P) : Move P → World P → Prop
  | construct {p' : P} {top : UInt32} (hnew : w.frames p' = none) (hcur : w.current ≠ some p')
      (hstack : ∀ k ∈ firstWords, L.stack p' (top - 24 + k)) :
      Step w (.construct p') { w with
        machine := w.machine.construct runProcess (L.kesp p') top
        frames := update w.frames p' (some (firstFrame runProcess top)) }
  | run {m' : Machine}
      (hkeep : ∀ q' F' a, w.frames q' = some F' → L.stack q' a ∨ a = L.kesp q' →
        m'.mem a = w.machine.mem a) :
      Step w .run { w with machine := m' }
  | switch {prev' : Option P} {next' : P} {flags' : UInt32} {F' : Frame}
      (C : Called L w prev' next' flags') (hnext : w.frames next' = some F') :
      Step w (.switch prev' next' flags')
        { machine := w.machine.contextSwitch
          current := some next'
          frames := update (prev'.elim w.frames fun p' => update w.frames p' (some w.machine.frame))
            next' none }

theorem Inv.construct (I : Inv L w) (hnew : w.frames p = none) (hcur : w.current ≠ some p)
    (hstack : ∀ k ∈ firstWords, L.stack p (top - 24 + k)) :
    Inv L { w with
      machine := w.machine.construct runProcess (L.kesp p) top
      frames := update w.frames p (some (firstFrame runProcess top)) } := by
  have hkesp : ∀ k ∈ firstWords, L.kesp p ≠ top - 24 + k :=
    fun k hk hc => L.kesp_stack p p (hc ▸ hstack k hk)
  obtain ⟨hcell, hsaved, hrest⟩ :=
    construct_saves (m := w.machine) runProcess (sub_add_cancel top 24).symm hkesp
  refine ⟨fun q hq => ?_, fun q G hq => ?_⟩
  · have hqp : q ≠ p := fun hc => hcur (hc ▸ hq)
    exact (Function.update_of_ne hqp ..).trans (I.current q hq)
  · by_cases hqp : q = p
    · subst hqp
      replace hq : update w.frames q (some (firstFrame runProcess top)) q = some G := hq
      rw [Function.update_self] at hq
      obtain rfl := Option.some.inj hq
      rw [Resumable, hcell]
      have hwords : firstWords = frameWords ++ [20] := rfl
      exact ⟨hsaved, fun k hk => hstack k (hwords ▸ List.mem_append_left _ hk)⟩
    · replace hq : w.frames q = some G := (Function.update_of_ne hqp ..).symm.trans hq
      exact (I.resumable q G hq).congr fun a ha =>
        hrest a (L.beside hqp ha (.inr rfl)) fun k hk => L.beside hqp ha (.inl (hstack k hk))

theorem Inv.step (I : Inv L w) (h : Step L runProcess w move w') : Inv L w' := by
  cases h with
  | construct hnew hcur hstack => exact I.construct hnew hcur hstack
  | run hkeep =>
    exact ⟨I.current, fun q G hq => (I.resumable q G hq).congr fun a ha => hkeep q G a hq ha⟩
  | @switch prev next flags F C hnext =>
    obtain ⟨-, -, hothers, hprev⟩ := C.switch I hnext
    refine ⟨fun q hq => ?_, fun q G hq => ?_⟩
    · obtain rfl := Option.some.inj hq
      exact Function.update_self ..
    · have hne : q ≠ next := by
        rintro rfl
        simp at hq
      replace hq := (Function.update_of_ne hne ..).symm.trans hq
      cases prev with
      | none => exact hothers q G hne hq
      | some p =>
        by_cases hqp : q = p
        · subst hqp
          replace hq : update w.frames q (some w.machine.frame) q = some G := hq
          rw [Function.update_self] at hq
          obtain rfl := Option.some.inj hq
          exact hprev q rfl
        · exact hothers q G hne ((Function.update_of_ne hqp ..).symm.trans hq)

theorem Inv.run (I : Inv L w) (R : Run (Step L runProcess) w before w') : Inv L w' :=
  R.inv (fun _ _ _ I h => I.step h) I

/-- Until the process is switched to, its frame stays. -/
theorem Step.frame_stays (h : Step L runProcess w move w') (I : Inv L w) (hF : w.frames p = some F)
    (hmove : ∀ prev flags, move ≠ .switch prev p flags) : w'.frames p = some F := by
  cases h with
  | @construct q _ hnew =>
    have hpq : p ≠ q := by
      rintro rfl
      rw [hnew] at hF
      cases hF
    exact (Function.update_of_ne hpq ..).trans hF
  | run => exact hF
  | @switch prev next flags _ C =>
    have hne : p ≠ next := fun hc => hmove prev flags (hc ▸ rfl)
    refine (Function.update_of_ne hne ..).trans ?_
    cases prev with
    | none => exact hF
    | some q =>
      have hpq : p ≠ q := by
        rintro rfl
        rw [I.current p (C.running p rfl)] at hF
        cases hF
      exact (Function.update_of_ne hpq ..).trans hF

theorem frame_stays (I : Inv L w) (hF : w.frames p = some F)
    (R : Run (Step L runProcess) w between w')
    (hb : ∀ prev flags, .switch prev p flags ∉ between) : w'.frames p = some F := by
  induction R with
  | nil => exact hF
  | @snoc _ v move _ R h ih =>
    have hF := ih fun prev flags hm => hb prev flags (List.mem_append_left _ hm)
    refine h.frame_stays (I.run R) hF fun prev flags hm => hb prev flags ?_
    rw [← hm]
    exact List.mem_append_right _ (List.mem_singleton_self _)

/-- A switch to a process returns to its frame. -/
theorem Step.returns (h : Step L runProcess w (.switch prev p flags) w') (I : Inv L w)
    (hF : w.frames p = some F) : w'.machine.Returned F ∧ w'.machine.eflags = flags := by
  cases h with
  | switch C _ =>
    obtain ⟨hret, hflags, -⟩ := C.switch I hF
    exact ⟨hret, hflags⟩

/-- In every run, a process that is switched away from returns from `contextSwitch` when it is
switched to again, to the address from which it called, with its stack pointer and the registers
that a function must keep, and with the flags that the other side passed. -/
theorem switch_returns (h₀ : ∀ q, w₀.frames q = none)
    (R : Run (Step L runProcess) w₀ before w)
    (away : Step L runProcess w (.switch (some p) q eflags) w₁)
    (R' : Run (Step L runProcess) w₁ between w₂)
    (hb : ∀ prev flags, .switch prev p flags ∉ between)
    (back : Step L runProcess w₂ (.switch prev p flags) w₃) :
    w₃.machine.Returned w.machine.frame ∧ w₃.machine.eflags = flags := by
  have I := (Inv.start h₀).run R
  have I₁ := I.step away
  have hF : w₁.frames p = some w.machine.frame := by
    cases away with
    | switch C hnext =>
      have hpq : p ≠ q := by
        rintro rfl
        rw [I.current p (C.running p rfl)] at hnext
        cases hnext
      exact (Function.update_of_ne hpq ..).trans (Function.update_self ..)
  exact back.returns (I₁.run R') (frame_stays I₁ hF R' hb)

/-- Once constructed, a process enters `runProcess` with cleared registers and the last word of its
stack left. -/
theorem construct_starts (h₀ : ∀ q, w₀.frames q = none)
    (R : Run (Step L runProcess) w₀ before w) (made : Step L runProcess w (.construct p) w₁)
    (R' : Run (Step L runProcess) w₁ between w₂)
    (hb : ∀ prev flags, .switch prev p flags ∉ between)
    (back : Step L runProcess w₂ (.switch prev p flags) w₃) :
    ∃ top, w₁.machine.mem (L.kesp p) = top - 24 ∧
    w₃.machine.Returned (firstFrame runProcess top) ∧
      w₃.machine.eflags = flags := by
  have I := (Inv.start h₀).run R
  have I₁ := I.step made
  cases made with
  | @construct _ top _ _ hstack =>
    have hkesp : ∀ k ∈ firstWords, L.kesp p ≠ top - 24 + k :=
      fun k hk hc => L.kesp_stack p p (hc ▸ hstack k hk)
    have hcell := (construct_saves (m := w.machine) runProcess (sub_add_cancel top 24).symm hkesp).1
    exact ⟨top, hcell,
      back.returns (I₁.run R') (frame_stays I₁ (Function.update_self ..) R' hb)⟩

/-! A machine with two processes: the first of them makes the other and switches to it, which
switches back. -/

def twoStacks : Layout Bool where
  stack p a := a.toNat / 4096 = cond p 2 1
  kesp p := cond p 16 8
  apart p q a hp hq := by cases p <;> cases q <;> simp_all
  kesp_stack p q := by cases p <;> cases q <;> decide
  kesp_inj p q := by cases p <;> cases q <;> decide
  kesp_ne_zero p := by cases p <;> decide

instance decidableTwoStacks (p : Bool) (a : UInt32) : Decidable (twoStacks.stack p a) :=
  inferInstanceAs (Decidable (a.toNat / 4096 = cond p 2 1))

/-- The machine is in a call of `contextSwitch`. -/
def callMachine (m : Machine) (esp currentESP nextESP eflags : UInt32) : Machine :=
  (((m.set .esp esp).write (esp + 4) currentESP).write (esp + 8) nextESP).write (esp + 12) eflags

def firstWorld : World Bool where
  machine := callMachine ⟨fun _ => 7, 0, 0, fun _ => 0⟩ 0x1800 8 (0x3000 - 24) 0x200
  current := some false
  frames _ := none

def madeWorld : World Bool where
  machine := firstWorld.machine.construct 0x400 16 0x3000
  current := some false
  frames := update (fun _ => none) true (some (firstFrame 0x400 0x3000))

def awayWorld : World Bool where
  machine := madeWorld.machine.contextSwitch
  current := some true
  frames := update (update madeWorld.frames false (some madeWorld.machine.frame)) true none

def calledWorld : World Bool where
  machine := callMachine awayWorld.machine 0x2800 16 (0x1800 - 16) 0
  current := some true
  frames := awayWorld.frames

def backWorld : World Bool where
  machine := calledWorld.machine.contextSwitch
  current := some false
  frames := update (update calledWorld.frames true (some calledWorld.machine.frame)) false none

theorem step_madeWorld : Step twoStacks 0x400 firstWorld (.construct true) madeWorld :=
  .construct rfl (by decide) (forall_firstWords.mpr (by decide))

theorem step_awayWorld :
    Step twoStacks 0x400 madeWorld (.switch (some false) true 0x200) awayWorld := by
  have hnew : madeWorld.frames true = some (firstFrame 0x400 0x3000) := by simp [madeWorld]
  exact .switch ⟨fun _ hp => hp ▸ rfl, by decide, by decide, by decide, fun p hp => by
      cases hp; exact forall_frameWords.mpr (by decide)⟩ hnew

theorem construct_starts_away : ∃ top, madeWorld.machine.mem 16 = top - 24 ∧
    awayWorld.machine.Returned (firstFrame 0x400 top) ∧ awayWorld.machine.eflags = 0x200 :=
  construct_starts (fun _ => rfl) .nil step_madeWorld .nil (by simp) step_awayWorld

theorem switch_returns_back :
    backWorld.machine.Returned madeWorld.machine.frame ∧ backWorld.machine.eflags = 0 := by
  have called : Step twoStacks 0x400 awayWorld .run calledWorld := by
    refine .run fun q F a hq ha => ?_
    cases q with
    | true => simp [awayWorld] at hq
    | false =>
      have hne (k : UInt32) (hk : twoStacks.stack true k) : a ≠ k :=
        twoStacks.beside (by decide) ha (.inl hk)
      exact (Function.update_of_ne (hne _ (by decide)) ..).trans
        ((Function.update_of_ne (hne _ (by decide)) ..).trans
          (Function.update_of_ne (hne _ (by decide)) ..))
  have hfalse : calledWorld.frames false = some madeWorld.machine.frame := by
    simp [calledWorld, awayWorld]
  have back : Step twoStacks 0x400 calledWorld (.switch (some true) false 0) backWorld :=
    .switch ⟨fun _ hp => hp ▸ rfl, by decide, by decide, by decide, fun p hp => by
      cases hp; exact forall_frameWords.mpr (by decide)⟩ hfalse
  exact switch_returns (fun _ => rfl) (.single step_madeWorld) step_awayWorld (.single called)
    (by simp) back

end K439.Cpu
