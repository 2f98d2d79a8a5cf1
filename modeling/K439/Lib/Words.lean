import Mathlib.Tactic.Common

/-!
# Words

The words of a list are its maximal runs of elements other than a delimiter. A scan from the left
has read a part of a word, `wordsFrom` continues it.
-/

namespace K439

variable {α : Type _} [DecidableEq α] {d c : α} {w l : List α}

/-- The words of `w ++ l` when `w` is part of a word. -/
def wordsFrom (d : α) (w l : List α) : List (List α) :=
  ((l.splitOn d).modifyHead (w ++ ·)).filter fun w => !w.isEmpty

/-- The maximal runs of elements other than `d`. -/
def words (d : α) (l : List α) : List (List α) := (l.splitOn d).filter fun w => !w.isEmpty

/-- The word that has been begun, if there is one. -/
def begun (w : List α) : List (List α) := [w].filter fun w => !w.isEmpty

omit [DecidableEq α] in
theorem begun_of_ne_nil (h : w ≠ []) : begun w = [w] := by
  rw [begun, List.filter_cons_of_pos (by simpa using h), List.filter_nil]

theorem wordsFrom_nil : wordsFrom d [] l = words d l := by
  rw [wordsFrom, words]
  cases l.splitOn d with
  | nil => rfl
  | cons v vs => rfl

theorem wordsFrom_end : wordsFrom d w [] = begun w := by
  rw [wordsFrom, List.splitOn_nil, List.modifyHead_cons, List.append_nil, begun]

theorem wordsFrom_delimiter : wordsFrom d w (d :: l) = begun w ++ words d l := by
  rw [wordsFrom, List.splitOn, List.splitOnP_cons_eq_if_modifyHead, if_pos (beq_self_eq_true d),
    List.modifyHead_cons, List.append_nil, ← List.singleton_append, List.filter_append]
  rfl

theorem wordsFrom_cons (h : c ≠ d) : wordsFrom d w (c :: l) = wordsFrom d (w ++ [c]) l := by
  rw [wordsFrom, List.splitOn, List.splitOnP_cons_eq_if_modifyHead, if_neg (by simpa using h),
    wordsFrom, List.splitOn, List.modifyHead_modifyHead]
  congr 2
  funext v
  exact (List.append_assoc w [c] v).symm

theorem words_delimiter : words d (d :: l) = words d l := by
  rw [← wordsFrom_nil, wordsFrom_delimiter]
  rfl

/-- A word that has been begun is one of the words in the end. -/
theorem exists_prefix (h : w ≠ []) : ∃ v ∈ wordsFrom d w l, w <+: v := by
  induction l generalizing w with
  | nil =>
    exact ⟨w, by rw [wordsFrom_end, begun_of_ne_nil h]; exact List.mem_singleton.mpr rfl,
      List.prefix_rfl⟩
  | cons c l ih =>
    by_cases hc : c = d
    · rw [hc, wordsFrom_delimiter, begun_of_ne_nil h]
      exact ⟨w, List.mem_cons_self, List.prefix_rfl⟩
    · obtain ⟨v, hv, hp⟩ := ih (w := w ++ [c]) (by simp)
      rw [wordsFrom_cons hc]
      exact ⟨v, hv, (List.prefix_append w [c]).trans hp⟩

/-- Delimiters in front of the first word do not matter. -/
theorem words_dropWhile : words d (l.dropWhile (· = d)) = words d l := by
  induction l with
  | nil => rfl
  | cons c l ih =>
    by_cases hc : c = d
    · rw [List.dropWhile_cons_of_pos (by simpa using hc), ih, hc, words_delimiter]
    · rw [List.dropWhile_cons_of_neg (by simpa using hc)]

/-- A word that has been begun ends at the first delimiter. -/
theorem wordsFrom_takeWhile (h : w ≠ []) :
    wordsFrom d w l = (w ++ l.takeWhile (· ≠ d)) :: words d (l.dropWhile (· ≠ d)) := by
  induction l generalizing w with
  | nil =>
    rw [wordsFrom_end, begun_of_ne_nil h, List.takeWhile_nil, List.append_nil]
    rfl
  | cons c l ih =>
    by_cases hc : c = d
    · rw [hc, wordsFrom_delimiter, begun_of_ne_nil h, List.takeWhile_cons_of_neg (by simp),
        List.dropWhile_cons_of_neg (by simp), words_delimiter, List.append_nil]
      rfl
    · rw [wordsFrom_cons hc, ih (by simp), List.takeWhile_cons_of_pos (by simpa using hc),
        List.dropWhile_cons_of_pos (by simpa using hc), List.append_assoc]
      rfl

/-- The first word, and the words behind it. -/
theorem words_eq (hne : l.dropWhile (· = d) ≠ []) :
    words d l = (l.dropWhile (· = d)).takeWhile (· ≠ d) ::
    words d ((l.dropWhile (· = d)).dropWhile (· ≠ d)) := by
  rw [← words_dropWhile]
  have hhead := List.head_dropWhile_not (fun x => decide (x = d)) hne
  obtain ⟨c, m, hm⟩ := List.exists_cons_of_ne_nil hne
  have hc : c ≠ d := by simpa [hm] using hhead
  rw [hm, ← wordsFrom_nil, wordsFrom_cons hc, List.nil_append,
    wordsFrom_takeWhile (List.cons_ne_nil c []),
    List.takeWhile_cons_of_pos (by simpa using hc), List.dropWhile_cons_of_pos (by simpa using hc)]
  rfl

end K439
