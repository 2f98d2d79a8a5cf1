import K439.Lib.Linked
import K439.Lib.Run
import Mathlib.Logic.Function.Basic

/-!
# Queues of linked nodes

`kernel/queue.h`. The nodes of all queues are in one memory, which `new` and `delete` change; `new`
gives any address that is not in use, so a node can be where a deleted one was. The queues of a run
refine lists with one end to add at and one to remove from, as the scheduler and the semaphores have
them.
-/

namespace K439.Sched

/-- `SimpleQueue::Node` -/
structure Node (T : Type) where
  next : Nat
  prev : Nat
  value : T

/-- The nodes by their addresses. No node is at the null pointer 0. -/
abbrev Nodes (T : Type) := Nat → Option (Node T)

structure SimpleQueue where
  first : Nat
  last : Nat
  deriving DecidableEq

namespace SimpleQueue

variable {T : Type} (q : SimpleQueue) (m : Nodes T)

/-- `new SimpleQueue()` -/
def empty : SimpleQueue := ⟨0, 0⟩

/-- `n` is the address that `new` gives. -/
def addTail (n : Nat) (v : T) : Option (Nodes T × SimpleQueue) := do
  let m := Function.update m n (some { next := 0, prev := q.last, value := v })
  let m ←
    if q.last ≠ 0 then
      (m q.last).map fun l => Function.update m q.last (some { l with next := n })
    else some m
  some (m, { first := if q.first = 0 then n else q.first, last := n })

def isEmpty : Bool := q.first = 0

/-- `none`: it goes through a pointer to no node. -/
def removeHead : Option (T × Nodes T × SimpleQueue) := do
  let first := (← m q.first).next
  let m ← (if first = 0 then some m
    else (m first).map fun n => Function.update m first (some { n with prev := 0 }))
  let v := (← m q.first).value
  some (v, Function.update m q.first none,
    { first := first, last := if first = 0 then 0 else q.last })

end SimpleQueue

/-- Any number of queues. -/
structure Queues (T : Type) where
  nodes : Nodes T
  queue : Nat → SimpleQueue

namespace Queues

variable {T : Type} {s t : Queues T} {op : Nat × Option T} {ops : List (Nat × Option T)}
  {ls : Nat → List Nat}
  {l : List Nat} {i n p a : Nat} {v : T} {m m' : Nodes T} {q : SimpleQueue} {nd : Node T}

def init : Queues T := ⟨fun _ => none, fun _ => .empty⟩

def set (s : Queues T) (i : Nat) (m : Nodes T) (q : SimpleQueue) : Queues T :=
  ⟨m, Function.update s.queue i q⟩

/-- The label of a step is the queue, and what is added to it or none for a removal. -/
inductive Step (s : Queues T) : Nat × Option T → Queues T → Prop
  | addTail {i' n' : Nat} {v' : T} {m' : Nodes T} {q' : SimpleQueue} (h0 : n' ≠ 0)
      (hfree : s.nodes n' = none) (h : (s.queue i').addTail s.nodes n' v' = some (m', q')) :
      Step s (i', some v') (s.set i' m' q')
  | removeHead {i' : Nat} {v' : T} {m' : Nodes T} {q' : SimpleQueue}
      (h : (s.queue i').removeHead s.nodes = some (v', m', q')) : Step s (i', none) (s.set i' m' q')

/-- What an operation does to the lists. -/
def effect (c : Nat → List T) : Nat × Option T → Nat → List T
  | (i, some v) => Function.update c i (c i ++ [v])
  | (i, none) => Function.update c i (c i).tail

/-- The queues as lists. -/
def lists (ops : List (Nat × Option T)) : Nat → List T := ops.foldl effect fun _ => []

/-! ## Nodes -/

def next (m : Nodes T) (a : Nat) : Nat := (m a).elim 0 Node.next

def prev (m : Nodes T) (a : Nat) : Nat := (m a).elim 0 Node.prev

def value (m : Nodes T) (a : Nat) : Option T := (m a).map Node.value

theorem next_some (h : m a = some nd) : next m a = nd.next := by rw [next, h]; rfl

theorem prev_some (h : m a = some nd) : prev m a = nd.prev := by rw [prev, h]; rfl

theorem value_some (h : m a = some nd) : value m a = some nd.value := by rw [value, h]; rfl

theorem none_iff_of_value (h : value m' a = value m a) : m' a = none ↔ m a = none := by
  rw [← Option.map_eq_none_iff (f := Node.value),
    ← Option.map_eq_none_iff (x := m a) (f := Node.value)]
  exact Eq.congr_left h

/-- The nodes of a queue in order. -/
structure Spells (m : Nodes T) (q : SimpleQueue) (l : List Nat) : Prop where
  linked : DLinked (next m) (prev m) 0 0 q.first l
  last : q.last = l.getLastD 0
  live : ∀ a ∈ l, m a ≠ none

/-- All nodes belong to the queues, each to one. -/
structure Spelled (s : Queues T) (ls : Nat → List Nat) : Prop where
  spells : ∀ i, Spells s.nodes (s.queue i) (ls i)
  apart : ∀ i j a, a ∈ ls i → a ∈ ls j → i = j
  owned : ∀ a, s.nodes a ≠ none → ∃ i, a ∈ ls i

/-- The lists `c` are what the nodes hold. -/
def Values (s : Queues T) (ls : Nat → List Nat) (c : Nat → List T) : Prop :=
  ∀ i, (ls i).map (value s.nodes) = (c i).map some

/-- The node `n` is linked behind the last one. -/
structure Extends (m m' : Nodes T) (q : SimpleQueue) (l : List Nat) (n : Nat) (v : T) : Prop where
  self : m' n = some ⟨0, q.last, v⟩
  last : l ≠ [] → ∃ nd, m q.last = some nd ∧ m' q.last = some { nd with next := n }
  off : ∀ a, a ≠ n → l = [] ∨ a ≠ q.last → m' a = m a

/-- The node `p` is gone, and the next one is the first. -/
structure Shortens (m m' : Nodes T) (p : Nat) (l : List Nat) : Prop where
  self : m' p = none
  head : ∀ w ∈ l.head?, ∃ nd, m w = some nd ∧ m' w = some { nd with prev := 0 }
  off : ∀ a, a ≠ p → a ∉ l.head? → m' a = m a

namespace Spells

theorem congr (h : Spells m q l) (he : ∀ a ∈ l, m' a = m a) : Spells m' q l := by
  refine ⟨h.linked.congr (fun a ha => ?_) fun a ha => ?_, h.last, fun a ha => ?_⟩
  · rw [next, next, he a ha]
  · rw [prev, prev, he a ha]
  · rw [he a ha]
    exact h.live a ha

theorem first_eq (h : Spells m q l) : q.first = 0 ↔ l = [] := h.linked.linked.eq_nil_iff

theorem last_mem (h : Spells m q l) (hl : l ≠ []) : q.last ∈ l := by
  cases l with
  | nil => exact (hl rfl).elim
  | cons x l => rw [h.last, List.getLastD_cons]; exact List.getLastD_mem_cons

theorem last_ne (h : Spells m q l) (hl : l ≠ []) : q.last ≠ 0 :=
  h.linked.linked.ne_nil (h.last_mem hl)

end Spells

namespace Extends

variable (E : Extends m m' q l n v)
include E

theorem value_of_ne (ha : a ≠ n) : value m' a = value m a := by
  by_cases h : l = [] ∨ a ≠ q.last
  · rw [value, value, E.off a ha h]
  · obtain ⟨hl, ha⟩ := not_or.mp h
    obtain ⟨nd, h1, h2⟩ := E.last hl
    rw [of_not_not ha, value_some h2, value_some h1]

theorem prev_of_ne (ha : a ≠ n) : prev m' a = prev m a := by
  by_cases h : l = [] ∨ a ≠ q.last
  · rw [prev, prev, E.off a ha h]
  · obtain ⟨hl, ha⟩ := not_or.mp h
    obtain ⟨nd, h1, h2⟩ := E.last hl
    rw [of_not_not ha, prev_some h2, prev_some h1]

theorem live_of_ne (ha : a ≠ n) : m' a = none ↔ m a = none :=
  none_iff_of_value (E.value_of_ne ha)

theorem off_list (h : Spells m q l) (hl : a ∉ l) (ha : a ≠ n) : m' a = m a := by
  refine E.off a ha ?_
  by_cases hnil : l = []
  · exact .inl hnil
  · exact .inr fun he => hl (he ▸ h.last_mem hnil)

theorem spells (h : Spells m q l) (h0 : n ≠ 0) (hnl : n ∉ l) :
    Spells m' ⟨if q.first = 0 then n else q.first, n⟩ (l ++ [n]) := by
  have hne : ∀ a ∈ l, a ≠ n := fun a ha he => hnl (he ▸ ha)
  refine ⟨?_, List.getLastD_concat.symm, fun a ha => ?_⟩
  · have hlinked : DLinked (next m') (prev m') 0 0 (if l = [] then n else q.first) (l ++ [n]) :=
      h.linked.snoc h0 (next_some E.self) ((prev_some E.self).trans h.last)
        (fun a ha => E.prev_of_ne (hne a ha))
        (fun a ha hlast => ?_) fun hl => ?_
    · simp only [h.first_eq]
      exact hlinked
    · rw [next, next, E.off a (hne a ha) (.inr (h.last ▸ hlast))]
    · obtain ⟨nd, -, h2⟩ := E.last hl
      rw [← h.last, next_some h2]
  · rcases List.mem_append.mp ha with ha | ha
    · exact fun hnone => h.live a ha ((E.live_of_ne (hne a ha)).mp hnone)
    · obtain rfl := List.mem_singleton.mp ha
      rw [E.self]
      exact Option.some_ne_none _

end Extends

namespace Shortens

variable (S : Shortens m m' p l)
include S

theorem value_of_ne (ha : a ≠ p) : value m' a = value m a := by
  by_cases h : a ∈ l.head?
  · obtain ⟨nd, h1, h2⟩ := S.head a h
    rw [value_some h2, value_some h1]
  · rw [value, value, S.off a ha h]

theorem next_of_ne (ha : a ≠ p) : next m' a = next m a := by
  by_cases h : a ∈ l.head?
  · obtain ⟨nd, h1, h2⟩ := S.head a h
    rw [next_some h2, next_some h1]
  · rw [next, next, S.off a ha h]

theorem live_of_ne (ha : a ≠ p) : m' a = none ↔ m a = none :=
  none_iff_of_value (S.value_of_ne ha)

theorem spells (h : Spells m q (p :: l)) :
    Spells m' ⟨next m p, if l = [] then 0 else q.last⟩ l := by
  have hp : p ∉ l := (List.nodup_cons.mp h.linked.linked.nodup).1
  have hne : ∀ a ∈ l, a ≠ p := fun a ha he => hp (he ▸ ha)
  refine ⟨h.linked.tail (fun w hw => ?_) (fun a ha => S.next_of_ne (hne a ha)) fun a ha hw => ?_,
    ?_, fun a ha => ?_⟩
  · obtain ⟨nd, -, h2⟩ := S.head w hw
    exact prev_some h2
  · rw [prev, prev, S.off a (hne a ha) hw]
  · have hlast := h.last
    rw [List.getLastD_cons] at hlast
    cases l with
    | nil => rfl
    | cons w l =>
      rw [List.getLastD_cons] at hlast ⊢
      rw [if_neg (List.cons_ne_nil w l)]
      exact hlast
  · exact fun hnone => h.live a (List.mem_cons_of_mem _ ha) ((S.live_of_ne (hne a ha)).mp hnone)

end Shortens

theorem Spells.addTail (h : Spells m q l) (h0 : n ≠ 0) (hfree : m n = none) :
    ∃ m' q', q.addTail m n v = some (m', q') ∧ Spells m' q' (l ++ [n]) ∧
    Extends m m' q l n v := by
  have hnl : n ∉ l := fun hl => h.live n hl hfree
  have hadd : ∃ m', q.addTail m n v = some (m', ⟨if q.first = 0 then n else q.first, n⟩) ∧
      Extends m m' q l n v := by
    unfold SimpleQueue.addTail
    dsimp only
    by_cases hl : l = []
    · rw [if_neg (not_not.mpr (h.last.trans (by rw [hl]; rfl)))]
      exact ⟨_, rfl, Function.update_self .., absurd hl,
        fun a ha _ => Function.update_of_ne ha ..⟩
    · have hlast : q.last ≠ n := fun he => hnl (he ▸ h.last_mem hl)
      obtain ⟨nd, hnd⟩ := Option.ne_none_iff_exists'.mp (h.live _ (h.last_mem hl))
      rw [if_pos (h.last_ne hl), Function.update_of_ne hlast, hnd]
      refine ⟨_, rfl, ?_, fun _ => ⟨nd, hnd, Function.update_self ..⟩, fun a ha hor => ?_⟩
      · exact (Function.update_of_ne hlast.symm ..).trans (Function.update_self ..)
      · exact (Function.update_of_ne (hor.resolve_left hl) ..).trans (Function.update_of_ne ha ..)
  obtain ⟨m', hq, E⟩ := hadd
  exact ⟨m', _, hq, E.spells h h0 hnl, E⟩

theorem Spells.removeHead (h : Spells m q (p :: l)) :
    ∃ v m' q', q.removeHead m = some (v, m', q') ∧ value m p = some v ∧ Spells m' q' l ∧
    Shortens m m' p l := by
  have hp : p ∉ l := (List.nodup_cons.mp h.linked.linked.nodup).1
  obtain ⟨nd, hnd⟩ := Option.ne_none_iff_exists'.mp (h.live p List.mem_cons_self)
  have hremove :
      ∃ m', q.removeHead m = some (nd.value, m', ⟨next m p, if l = [] then 0 else q.last⟩) ∧
      Shortens m m' p l := by
    obtain ⟨hfirst, -, -, hl⟩ := h.linked
    rw [next_some hnd] at hl ⊢
    unfold SimpleQueue.removeHead
    rw [hfirst, hnd]
    cases l with
    | nil =>
      have h0 : nd.next = 0 := hl
      dsimp only [Option.bind_eq_bind, Option.bind_some]
      rw [if_pos h0, if_pos h0]
      dsimp only [Option.bind_some]
      rw [hnd]
      exact ⟨_, rfl, Function.update_self .., by simp,
        fun a ha _ => Function.update_of_ne ha ..⟩
    | cons w l =>
      obtain ⟨hw, hw0, -, -⟩ := hl
      obtain ⟨nw, hnw⟩ :=
        Option.ne_none_iff_exists'.mp (h.live w (List.mem_cons_of_mem _ List.mem_cons_self))
      have hwp : w ≠ p := fun he => hp (he ▸ List.mem_cons_self)
      dsimp only [Option.bind_eq_bind, Option.bind_some]
      rw [hw, if_neg hw0, if_neg hw0, hnw]
      dsimp only [Option.map_some, Option.bind_some]
      rw [Function.update_of_ne hwp.symm, hnd]
      refine ⟨_, rfl, Function.update_self .., fun w' hw' => ?_, fun a ha hhead => ?_⟩
      · obtain rfl := Option.some.inj hw'
        exact ⟨nw, hnw, (Function.update_of_ne hwp ..).trans (Function.update_self ..)⟩
      · exact (Function.update_of_ne ha ..).trans
          (Function.update_of_ne (fun he => hhead (congrArg some he.symm)) ..)
  obtain ⟨m', hq, S⟩ := hremove
  exact ⟨nd.value, m', _, hq, value_some hnd, S.spells h, S⟩

/-- There is nothing to remove. -/
theorem Spells.removeHead_nil (h : Spells m q []) (h0 : m 0 = none) : q.removeHead m = none := by
  unfold SimpleQueue.removeHead
  rw [h.first_eq.mpr rfl, h0]
  rfl

/-! ## Runs -/

namespace Spelled

theorem zero (S : Spelled s ls) : s.nodes 0 = none := by
  by_contra h
  obtain ⟨i, hi⟩ := S.owned 0 h
  exact (S.spells i).linked.linked.ne_nil hi rfl

theorem addTail {c : Nat → List T} (S : Spelled s ls) (hc : Values s ls c) (h0 : n ≠ 0)
    (hfree : s.nodes n = none) (h : (s.queue i).addTail s.nodes n v = some (m, q)) :
    ∃ ls', Spelled (s.set i m q) ls' ∧ Values (s.set i m q) ls' (effect c (i, some v)) := by
  obtain ⟨m', q', hq, hspells, E⟩ := (S.spells i).addTail (v := v) h0 hfree
  obtain ⟨rfl, rfl⟩ := Prod.mk.inj (Option.some.inj (h.symm.trans hq))
  have hn j (hj : n ∈ ls j) : False := (S.spells j).live n hj hfree
  have hne : ∀ j, ∀ a ∈ ls j, a ≠ n := fun j a ha he => hn j (he ▸ ha)
  have hmem : ∀ j a, a ∈ Function.update ls i (ls i ++ [n]) j ↔ a ∈ ls j ∨ j = i ∧
      a = n := by
    intro j a
    rcases decEq j i with hji | rfl
    · rw [Function.update_of_ne hji]
      exact (or_iff_left fun h => hji h.1).symm
    · rw [Function.update_self, List.mem_append, List.mem_singleton]
      exact or_congr_right (and_iff_right rfl).symm
  refine ⟨Function.update ls i (ls i ++ [n]),
    ⟨fun j => ?_, fun j k a hj hk => ?_, fun a ha => ?_⟩, fun j => ?_⟩
  · rcases decEq j i with hji | rfl
    · dsimp only [set]
      rw [Function.update_of_ne hji, Function.update_of_ne hji]
      exact (S.spells j).congr fun a ha =>
        E.off_list (S.spells i) (fun hi => hji (S.apart j i a ha hi)) (hne j a ha)
    · dsimp only [set]
      rwa [Function.update_self, Function.update_self]
  · rcases (hmem j a).mp hj with hj' | ⟨hj', han⟩
    · rcases (hmem k a).mp hk with hk' | ⟨-, han⟩
      · exact S.apart j k a hj' hk'
      · exact (hne j a hj' han).elim
    · rcases (hmem k a).mp hk with hk' | ⟨hk', -⟩
      · exact (hne k a hk' han).elim
      · exact hj'.trans hk'.symm
  · rcases decEq a n with han | rfl
    · obtain ⟨j, hj⟩ := S.owned a fun h => ha ((E.live_of_ne han).mpr h)
      exact ⟨j, (hmem j a).mpr (.inl hj)⟩
    · exact ⟨i, (hmem i a).mpr (.inr ⟨rfl, rfl⟩)⟩
  · have hold : (ls j).map (value m) = (c j).map some := by
      rw [← hc j]
      exact List.map_congr_left fun a ha => E.value_of_ne (hne j a ha)
    rw [effect]
    rcases decEq j i with hji | rfl
    · rw [Function.update_of_ne hji, Function.update_of_ne hji]
      exact hold
    · rw [Function.update_self, Function.update_self, List.map_append, List.map_append]
      exact congrArg₂ (· ++ ·) hold (congrArg (fun x => [x]) (value_some E.self))

theorem removeHead {c : Nat → List T} (S : Spelled s ls) (hc : Values s ls c)
    (h : (s.queue i).removeHead s.nodes = some (v, m, q)) :
    ∃ ls', Spelled (s.set i m q) ls' ∧ Values (s.set i m q) ls' (effect c (i, none)) := by
  cases hl : ls i with
  | nil =>
    have hsp : Spells s.nodes (s.queue i) [] := hl ▸ S.spells i
    rw [hsp.removeHead_nil S.zero] at h
    cases h
  | cons p l =>
    have hsp : Spells s.nodes (s.queue i) (p :: l) := hl ▸ S.spells i
    obtain ⟨v', m', q', hq, -, hspells, D⟩ := hsp.removeHead
    obtain ⟨rfl, rfl⟩ := Prod.mk.inj (Prod.mk.inj (Option.some.inj (h.symm.trans hq))).2
    have hp : p ∉ l := (List.nodup_cons.mp hsp.linked.linked.nodup).1
    have hpi : p ∈ ls i := hl ▸ List.mem_cons_self
    have hmem : ∀ j a, a ∈ Function.update ls i l j ↔ a ∈ ls j ∧ a ≠ p := by
      intro j a
      rcases decEq j i with hji | rfl
      · rw [Function.update_of_ne hji]
        refine ⟨fun ha => ⟨ha, fun he => hji (S.apart j i a ha ?_)⟩, fun h => h.1⟩
        rwa [he]
      · rw [Function.update_self, hl, List.mem_cons]
        exact ⟨fun ha => ⟨.inr ha, fun he => hp (he ▸ ha)⟩, fun h => h.1.resolve_left h.2⟩
    have hoff j (hji : j ≠ i) : ∀ a ∈ ls j, m a = s.nodes a := by
      intro a ha
      have hni : a ∉ p :: l := fun hi => hji (S.apart j i a ha (hl ▸ hi))
      exact D.off a (fun he => hni (he ▸ List.mem_cons_self))
        fun hhead => hni (List.mem_cons_of_mem _ (List.mem_of_mem_head? hhead))
    refine ⟨Function.update ls i l, ⟨fun j => ?_, fun j k a hj hk => ?_, fun a ha => ?_⟩,
      fun j => ?_⟩
    · rcases decEq j i with hji | rfl
      · dsimp only [set]
        rw [Function.update_of_ne hji, Function.update_of_ne hji]
        exact (S.spells j).congr (hoff j hji)
      · dsimp only [set]
        rwa [Function.update_self, Function.update_self]
    · exact S.apart j k a ((hmem j a).mp hj).1 ((hmem k a).mp hk).1
    · have hap : a ≠ p := fun he => ha (he ▸ D.self)
      obtain ⟨j, hj⟩ := S.owned a fun h => ha ((D.live_of_ne hap).mpr h)
      exact ⟨j, (hmem j a).mpr ⟨hj, hap⟩⟩
    · rw [effect]
      rcases decEq j i with hji | rfl
      · rw [Function.update_of_ne hji, Function.update_of_ne hji, ← hc j]
        exact List.map_congr_left fun a ha => congrArg (Option.map Node.value) (hoff j hji a ha)
      · rw [Function.update_self, Function.update_self, List.map_tail, ← hc j, hl]
        exact List.map_congr_left fun a ha => D.value_of_ne fun he => hp (he ▸ ha)

theorem step {c : Nat → List T} (S : Spelled s ls) (hc : Values s ls c) (h : Step s op t) :
    ∃ ls', Spelled t ls' ∧ Values t ls' (effect c op) := by
  cases h with
  | addTail h0 hfree h => exact S.addTail hc h0 hfree h
  | removeHead h => exact S.removeHead hc h

end Spelled

theorem lists_concat : lists (ops ++ [op]) = effect (lists ops) op := List.foldl_append

theorem run_spelled (h : Run Step init ops s) :
    ∃ ls, Spelled s ls ∧ Values s ls (lists ops) := by
  induction h with
  | nil =>
    exact ⟨fun _ => [], ⟨fun i => ⟨rfl, rfl, by simp⟩, by simp, fun a h => (h rfl).elim⟩,
      fun i => rfl⟩
  | snoc _ h ih =>
    obtain ⟨ls, S, hc⟩ := ih
    rw [lists_concat]
    exact S.step hc h

/-- **The queues are lists.** After any adds and removals, wherever the nodes are, a queue is empty
when its list is, what it gives next is the first of its list, and every node belongs to one queue,
in which it stands for one element. -/
theorem queues_lists (h : Run Step init ops s) :
    (∀ i, (s.queue i).isEmpty = true ↔ lists ops i = []) ∧
      (∀ i, ((s.queue i).removeHead s.nodes).map (·.1) = (lists ops i).head?) ∧
      (∀ i n (v : T), n ≠ 0 → s.nodes n = none → ∃ r,
        (s.queue i).addTail s.nodes n v = some r) ∧
      ∃ ls, Spelled s ls ∧ Values s ls (lists ops) := by
  obtain ⟨ls, S, hc⟩ := run_spelled h
  refine ⟨fun i => ?_, fun i => ?_, fun i n v h0 hfree => ?_, ls, S, hc⟩
  · have hlen : ls i = [] ↔ lists ops i = [] := by
      rw [← List.map_eq_nil_iff (f := value s.nodes), hc i, List.map_eq_nil_iff]
    rw [← hlen, ← (S.spells i).first_eq]
    exact decide_eq_true_iff
  · have hval := hc i
    have hsp := S.spells i
    cases hl : ls i with
    | nil =>
      rw [hl] at hval hsp
      rw [hsp.removeHead_nil S.zero, List.map_eq_nil_iff.mp hval.symm]
      rfl
    | cons p l =>
      rw [hl] at hval hsp
      obtain ⟨v, m', q', hq, hv, -, -⟩ := hsp.removeHead
      rw [hq]
      cases hlist : lists ops i with
      | nil =>
        rw [hlist] at hval
        cases hval
      | cons w c =>
        rw [hlist] at hval
        exact hv.symm.trans (List.cons.inj hval).1
  · obtain ⟨m', q', hq, -, -⟩ := (S.spells i).addTail (v := v) h0 hfree
    exact ⟨_, hq⟩

/-- The node of a removed element is used again, for another queue. -/
theorem queues_lists_reused : ∃ s :
    Queues Nat, Run Step init [(0, some 7), (1, some 8), (0, none), (1, some 9)] s ∧
    ((s.queue 1).removeHead s.nodes).map (·.1) = some 8 := by
  have h₁ := Run.single (@Step.addTail Nat init 0 1 7 _ _ (by decide) rfl rfl)
  have h₂ := h₁.snoc (@Step.addTail Nat _ 1 2 8 _ _ (by decide) rfl rfl)
  have h₃ := h₂.snoc (@Step.removeHead Nat _ 0 7 _ _ rfl)
  have h₄ := h₃.snoc (@Step.addTail Nat _ 1 1 9 _ _ (by decide) rfl rfl)
  exact ⟨_, h₄, (queues_lists h₄).2.1 1⟩

end Queues

end K439.Sched
