import Mathlib.Data.List.Dedup

/-!
# The most recently used elements

A history lists the uses of elements, oldest first. Its recency list has every
element used once, the last one used first; a cache of `m` entries that always
evicts the least recently used one holds the first `m` elements of it.
-/

namespace FreqAnalysis.Base

section Recency

variable {α : Type} [DecidableEq α]

/-- The `m` most recently used distinct elements, the last one used first. -/
def recent (m : ℕ) (uses : List α) : List α := uses.dedup.reverse.take m

theorem recent_length_le (m : ℕ) (uses : List α) : (recent m uses).length ≤ m :=
  List.length_take_le ..

theorem recent_nodup (m : ℕ) (uses : List α) : (recent m uses).Nodup :=
  (List.nodup_reverse.mpr uses.nodup_dedup).sublist (List.take_sublist ..)

theorem dedup_concat (uses : List α) (x : α) :
    (uses ++ [x]).dedup = uses.dedup.erase x ++ [x] := by
  induction uses with
  | nil => rfl
  | cons a uses ih =>
    rw [List.cons_append]
    by_cases ha : a ∈ uses
    · rw [List.dedup_cons_of_mem (List.mem_append_left _ ha), ih, List.dedup_cons_of_mem ha]
    · rw [List.dedup_cons_of_notMem ha]
      by_cases hax : a = x
      · subst hax
        have herase : uses.dedup.erase a = uses.dedup :=
          List.erase_of_not_mem (by rwa [List.mem_dedup])
        rw [List.dedup_cons_of_mem (by simp), ih, List.erase_cons_head, herase]
      · rw [List.dedup_cons_of_notMem (by simp [ha, hax]), ih, List.erase_cons_tail (by simpa using hax),
          List.cons_append]

theorem dedup_concat_reverse (uses : List α) (x : α) :
    (uses ++ [x]).dedup.reverse = x :: uses.dedup.reverse.erase x := by
  have hnodup := uses.nodup_dedup
  rw [dedup_concat, List.reverse_append, hnodup.erase_eq_filter,
    (List.nodup_reverse.mpr hnodup).erase_eq_filter, List.filter_reverse]
  rfl

theorem take_erase_of_not_mem (l : List α) (n : ℕ) (x : α) (hx : x ∉ l.take n) :
    (l.erase x).take n = l.take n := by
  induction l generalizing n with
  | nil => rfl
  | cons a l ih =>
    cases n with
    | zero => rfl
    | succ n =>
      rw [List.take_succ_cons, List.mem_cons, not_or] at hx
      have hax : ¬ (a == x) = true := by simpa using Ne.symm hx.1
      rw [List.erase_cons_tail hax, List.take_succ_cons, List.take_succ_cons, ih n hx.2]

theorem take_erase_of_mem (l : List α) (n : ℕ) (x : α) (hx : x ∈ l.take (n + 1)) :
    (l.erase x).take n = (l.take (n + 1)).erase x := by
  induction l generalizing n with
  | nil => cases hx
  | cons a l ih =>
    rw [List.take_succ_cons] at hx ⊢
    by_cases hax : a = x
    · rw [hax, List.erase_cons_head, List.erase_cons_head]
    · have hne : ¬ (a == x) = true := by simpa using hax
      have hmem : x ∈ l.take n := (List.mem_cons.mp hx).resolve_left (Ne.symm hax)
      cases n with
      | zero => cases hmem
      | succ n =>
        rw [List.erase_cons_tail hne, List.erase_cons_tail hne, List.take_succ_cons, ih n hmem]

/-- A use of a cached element moves it to the front. -/
theorem recent_concat_of_mem {m : ℕ} {uses : List α} {x : α} (hx : x ∈ recent m uses) :
    recent m (uses ++ [x]) = x :: (recent m uses).filter (· ≠ x) := by
  have herase : (recent m uses).erase x = (recent m uses).filter (· ≠ x) := by
    rw [(recent_nodup m uses).erase_eq_filter]
    exact List.filter_congr fun y _ => Bool.eq_iff_iff.mpr (by simp)
  rw [← herase]
  unfold recent at hx ⊢
  cases m with
  | zero => cases hx
  | succ n =>
    rw [dedup_concat_reverse, List.take_succ_cons, take_erase_of_mem _ _ _ hx]

/-- A use of any other element pushes it to the front and the last one out. -/
theorem recent_concat_of_not_mem {m : ℕ} {uses : List α} {x : α} (hx : x ∉ recent m uses) :
    recent m (uses ++ [x]) = (x :: recent m uses).take m := by
  unfold recent at hx ⊢
  cases m with
  | zero => rfl
  | succ n =>
    have hx' : x ∉ uses.dedup.reverse.take n :=
      fun h => hx ((List.take_sublist_take_left (Nat.le_succ n)).subset h)
    rw [dedup_concat_reverse, List.take_succ_cons, List.take_succ_cons,
      take_erase_of_not_mem _ _ _ hx', List.take_take, Nat.min_eq_left (Nat.le_succ n)]

end Recency

end FreqAnalysis.Base
