import FreqAnalysis.Locality.CountExact

/-!
# Counting a reversed trace

The left half of `read_hashes` counts `last` under the key `hash`, the right
half counts `hash` under the key `last`. On the reversed trace the two neighbours
of an adjacent pair change places, so the two databases do too, up to the order
in which the records of a value were appended.
-/

namespace FreqAnalysis.Locality
open Base

theorem pairs_concat (l : List Fp) (a b : Fp) :
    pairs (l ++ [a] ++ [b]) = pairs (l ++ [a]) ++ [(a, b)] := by
  induction l with
  | nil => rfl
  | cons c l ih =>
    cases l with
    | nil => rfl
    | cons d l => exact congrArg (List.cons (c, d)) ih

theorem pairs_reverse (trace : List Fp) :
    pairs trace.reverse = ((pairs trace).map Prod.swap).reverse := by
  induction trace with
  | nil => rfl
  | cons a trace ih =>
    cases trace with
    | nil => rfl
    | cons b trace =>
      have hpairs : pairs (a :: b :: trace) = (a, b) :: pairs (b :: trace) := rfl
      have hsplit : (a :: b :: trace).reverse = trace.reverse ++ [b] ++ [a] := by
        rw [List.reverse_cons, List.reverse_cons]
      rw [hsplit, pairs_concat, ← List.reverse_cons, ih, hpairs, List.map_cons, List.reverse_cons]
      rfl

theorem pairs_reverse_perm (trace : List Fp) :
    (pairs trace.reverse).Perm ((pairs trace).map Prod.swap) := by
  rw [pairs_reverse]
  exact List.reverse_perm _

theorem leftOf_reverse (trace : List Fp) (x : Fp) :
    (leftOf [trace.reverse] x).Perm (rightOf [trace] x) := by
  have hperm := ((pairs_reverse_perm trace).filter (fun p => p.2 = x)).map
    (fun p => neighbour p.1)
  rw [List.filter_map, List.map_map] at hperm
  rw [leftOf, rightOf, allPairs, allPairs, List.flatMap_singleton, List.flatMap_singleton]
  exact hperm

theorem rightOf_reverse (trace : List Fp) (x : Fp) :
    (rightOf [trace.reverse] x).Perm (leftOf [trace] x) := by
  have h := leftOf_reverse trace.reverse x
  rw [List.reverse_reverse] at h
  exact h.symm

/-! ### Values up to the order of their records -/

theorem entries_ofList_perm {l l' : List Fp} (h : l.Perm l') :
    (Tally.ofList l).entries.Perm (Tally.ofList l').entries := by
  have hnodup : ∀ t : Tally Fp, t.entries.Nodup := fun t => t.nodup.of_map
  rw [List.perm_ext_iff_of_nodup (hnodup _) (hnodup _)]
  rintro ⟨y, n⟩
  rw [Tally.mem_entries_iff, Tally.mem_entries_iff, Tally.count_ofList, Tally.count_ofList,
    h.count_eq]

/-- Both absent, or values with the same records: read as a map from
fingerprints to counts they are equal, as no fingerprint has two records. -/
def SameEntry (value value' : Option (List Byte)) : Prop :=
  match value, value' with
  | none, none => True
  | some v, some v' => ((records v).map Prod.fst).Nodup ∧ (records v).Perm (records v')
  | _, _ => False

theorem sameEntry_tableValue {l l' : List Fp} (h : l.Perm l') :
    SameEntry (tableValue l) (tableValue l') := by
  by_cases hnil : l = []
  · subst hnil
    rw [h.nil_eq.symm]
    trivial
  · have hnil' : l' ≠ [] := fun h0 => hnil (h0 ▸ h).eq_nil
    rw [tableValue, tableValue, if_neg hnil, if_neg hnil']
    show _ ∧ _
    rw [records_encode, records_encode, List.map_map]
    exact ⟨(Tally.ofList l).nodup, (entries_ofList_perm h).map _⟩

/-- The databases of the reversed trace are those of the trace with the two
neighbour databases exchanged. -/
theorem count_reversed_trace (trace : List Fp) :
    (∀ x, SameEntry ((countRuns [trace.reverse]).left.get x) ((countRuns [trace]).right.get x)) ∧
    (∀ x, SameEntry ((countRuns [trace.reverse]).right.get x) ((countRuns [trace]).left.get x)) ∧
    (countRuns [trace.reverse]).db = (countRuns [trace]).db := by
  refine ⟨?_, ?_, ?_⟩
  · intro x
    rw [countRuns_left, countRuns_right]
    exact sameEntry_tableValue (leftOf_reverse trace x)
  · intro x
    rw [countRuns_left, countRuns_right]
    exact sameEntry_tableValue (rightOf_reverse trace x)
  · exact countRuns_db_perm (List.reverse_perm trace)

end FreqAnalysis.Locality
