import K439.Lib.Linked
import Mathlib.Data.List.Perm.Basic
import Mathlib.Logic.Function.Basic

/-!
# Disjoint chains

`Chains next nil cs`: every pair of `cs` is a start and the list of what following `next` from it
visits, and no element is on two places of the lists. One update of `next` takes the first element
of a chain away (`Chains.take`), another one puts a chain in front of another one (`Chains.join`).
-/

namespace K439

variable {α : Type _} {next next' : α → α} {nil x y w : α} {l c : List α}
  {cs cs' : List (α × List α)}

structure Chains (next : α → α) (nil : α) (cs : List (α × List α)) : Prop where
  linked : ∀ p ∈ cs, Linked next nil p.1 p.2
  nodup : (cs.flatMap (·.2)).Nodup

namespace Chains

theorem perm (h : Chains next nil cs) (hp : cs.Perm cs') : Chains next nil cs' where
  linked p hm := h.linked p (hp.mem_iff.mpr hm)
  nodup := (hp.flatMap_right _).nodup_iff.mp h.nodup

theorem congr (h : Chains next nil cs) (he : ∀ z ∈ cs.flatMap (·.2), next' z = next z) :
    Chains next' nil cs where
  linked p hm := (h.linked p hm).congr fun z hz => he z (List.mem_flatMap.mpr ⟨p, hm, hz⟩)
  nodup := h.nodup

theorem tail (h : Chains next nil ((x, l) :: cs)) : Chains next nil cs where
  linked p hm := h.linked p (List.mem_cons_of_mem _ hm)
  nodup := (List.nodup_append.mp h.nodup).2.1

theorem head (h : Chains next nil ((x, l) :: cs)) : Linked next nil x l :=
  h.linked (x, l) List.mem_cons_self

theorem disjoint (h : Chains next nil ((x, l) :: cs)) (hw : w ∈ l) : w ∉ cs.flatMap (·.2) :=
  fun hc =>
  (List.nodup_append.mp h.nodup).2.2 w hw w hc rfl

theorem cons (h : Chains next nil cs) (hl : Linked next nil x l)
    (hd : ∀ z ∈ l, z ∉ cs.flatMap (·.2)) :
    Chains next nil ((x, l) :: cs) where
  linked p hm := by
    rcases List.mem_cons.mp hm with rfl | hm
    · exact hl
    · exact h.linked p hm
  nodup := List.nodup_append.mpr ⟨hl.nodup, h.nodup, fun z hz _ hc he => hd z hz (he ▸ hc)⟩

variable [DecidableEq α]

/-- The first element becomes a chain of its own. -/
theorem take (h : Chains next nil ((x, y :: l) :: cs)) :
    Chains (Function.update next y nil) nil ((next y, l) :: (y, [y]) :: cs) := by
  have hy : y ∉ cs.flatMap (·.2) := h.disjoint List.mem_cons_self
  have hyl : y ∉ l := (List.nodup_cons.mp h.head.nodup).1
  have hcs : Chains (Function.update next y nil) nil cs :=
    h.tail.congr fun z hz => Function.update_of_ne (ne_of_mem_of_not_mem hz hy) ..
  have hone : Linked (Function.update next y nil) nil y [y] :=
    ⟨rfl, h.head.2.1, Function.update_self ..⟩
  have hrest : Linked (Function.update next y nil) nil (next y) l :=
    h.head.pop fun z hz => Function.update_of_ne hz ..
  refine (hcs.cons hone fun z hz => ?_).cons hrest fun z hz hc => ?_
  · obtain rfl := List.mem_singleton.mp hz
    exact hy
  · rcases List.mem_append.mp hc with hc | hc
    · obtain rfl := List.mem_singleton.mp hc
      exact hyl hz
    · exact h.disjoint (List.mem_cons_of_mem _ hz) hc

/-- The second chain is put in front of the first one. -/
theorem join (h : Chains next nil ((x, l) :: (y, c ++ [w]) :: cs)) :
    Chains (Function.update next w x) nil ((y, c ++ w :: l) :: cs) := by
  have hd : ∀ z ∈ c ++ [w], z ∉ l := fun z hz hl => h.disjoint hl (List.mem_append_left _ hz)
  have hw : w ∉ cs.flatMap (·.2) := h.tail.disjoint (by simp)
  have hcs : Chains (Function.update next w x) nil cs :=
    h.tail.tail.congr fun z hz => Function.update_of_ne (ne_of_mem_of_not_mem hz hw) ..
  have hlink : Linked (Function.update next w x) nil y (c ++ w :: l) :=
    h.tail.head.join h.head hd (Function.update_self ..) fun z hz => Function.update_of_ne hz ..
  refine hcs.cons hlink fun z hz hc => ?_
  rcases List.mem_append.mp hz with hz | hz
  · exact h.tail.disjoint (List.mem_append_left _ hz) hc
  · rcases List.mem_cons.mp hz with rfl | hz
    · exact hw hc
    · exact h.disjoint hz (List.mem_append_right _ hc)

end Chains

end K439
