import FreqAnalysis.Locality.Count

/-!
# What the counted tables say about the traces

The tables hold the adjacent pairs of the traces exactly when no counted
fingerprint changes on its way through `assign` and `resize`. Totals are right
in any case: merging two neighbours into one record moves their counts together
but loses none of them.
-/

namespace FreqAnalysis.Locality
open Base

/-! ### Fingerprints that survive `assign` and `resize` -/

/-- Every byte behind a NUL is a NUL. -/
def NulPadded (h : Fp) : Prop :=
  ∀ i < fpSize, ∀ j < fpSize, i ≤ j → h.val.getD i 0 = 0 → h.val.getD j 0 = 0

instance (h : Fp) : Decidable (NulPadded h) := by unfold NulPadded; infer_instance

theorem getD_neighbour (h : Fp) (k : ℕ) (hk : k < fpSize) :
    (neighbour h).val.getD k 0 = if k < (cStr h.val).length then h.val.getD k 0 else 0 := by
  have hres : (neighbour h).val.getD k 0 = (cStr h.val).getD k 0 := getD_resize fpSize _ k hk
  rw [hres]
  split_ifs with hlt
  · exact (getD_cStr h.val k hlt).1
  · exact List.getD_eq_default _ _ (by omega)

theorem fp_ext (a b : Fp) (h : ∀ k < fpSize, a.val.getD k 0 = b.val.getD k 0) : a = b := by
  refine Subtype.ext (List.ext_getElem (a.property.trans b.property.symm) ?_)
  intro k h1 h2
  have := h k (by rw [← a.property]; exact h1)
  rwa [List.getD_eq_getElem _ _ h1, List.getD_eq_getElem _ _ h2] at this

theorem neighbour_eq_iff (h : Fp) : neighbour h = h ↔ NulPadded h := by
  constructor
  · intro heq i hi j hj hij h0
    have hle : (cStr h.val).length ≤ i := by
      by_contra hlt
      exact (getD_cStr h.val i (by omega)).2 h0
    have hj' := getD_neighbour h j hj
    rw [heq, if_neg (by omega)] at hj'
    exact hj'
  · intro hpad
    apply fp_ext _ _
    intro k hk
    rw [getD_neighbour h k hk]
    split_ifs with hlt
    · rfl
    · exact (hpad _ (by omega) k hk (by omega) (getD_cStr_length h.val)).symm

theorem cStr_neighbour (h : Fp) : cStr (neighbour h).val = cStr h.val := by
  have hlen := cStr_length_le h.val
  rw [h.property] at hlen
  have hval : (neighbour h).val
      = cStr h.val ++ List.replicate (fpSize - (cStr h.val).length) 0 := by
    show resize fpSize (cStr h.val) = _
    rw [resize, List.take_of_length_le hlen]
  rw [hval, cStr_append_of_not_mem _ _ (zero_not_mem_cStr h.val)]
  cases fpSize - (cStr h.val).length with
  | zero => simp [cStr]
  | succ r => simp [cStr, List.replicate_succ]

theorem neighbour_neighbour (h : Fp) : neighbour (neighbour h) = neighbour h := by
  show Fp.ofBytes (cStr (neighbour h).val) = _
  rw [cStr_neighbour]
  rfl

/-! ### Adjacent pairs -/

theorem pairs_map_fst (trace : List Fp) : (pairs trace).map Prod.fst = trace.dropLast := by
  induction trace with
  | nil => rfl
  | cons a trace ih =>
    cases trace with
    | nil => rfl
    | cons b trace =>
      rw [List.dropLast_cons_cons, ← ih]
      rfl

theorem pairs_map_snd (trace : List Fp) : (pairs trace).map Prod.snd = trace.tail :=
  List.map_snd_zip (by rw [List.length_tail]; omega)

theorem mem_pairs {trace : List Fp} {p : Fp × Fp} (h : p ∈ pairs trace) :
    p.1 ∈ trace ∧ p.2 ∈ trace ∧ 2 ≤ trace.length := by
  have h1 : p.1 ∈ trace.dropLast := pairs_map_fst trace ▸ List.mem_map.mpr ⟨p, h, rfl⟩
  have h2 : p.2 ∈ trace.tail := pairs_map_snd trace ▸ List.mem_map.mpr ⟨p, h, rfl⟩
  have hlen := List.length_pos_of_mem h2
  rw [List.length_tail] at hlen
  exact ⟨List.mem_of_mem_dropLast h1, List.mem_of_mem_tail h2, by omega⟩

theorem exists_pair {trace : List Fp} {h : Fp} (hmem : h ∈ trace) (hlen : 2 ≤ trace.length) :
    ∃ x, (h, x) ∈ pairs trace ∨ (x, h) ∈ pairs trace := by
  match trace, hlen with
  | a :: b :: rest, _ =>
    rcases List.mem_cons.mp hmem with rfl | htail
    · exact ⟨b, Or.inl (List.mem_cons_self ..)⟩
    · change h ∈ (a :: b :: rest).tail at htail
      rw [← pairs_map_snd] at htail
      obtain ⟨p, hp, rfl⟩ := List.mem_map.mp htail
      exact ⟨p.1, Or.inr hp⟩

theorem mem_allPairs {traces : List (List Fp)} {p : Fp × Fp} (h : p ∈ allPairs traces) :
    ∃ trace ∈ traces, p.1 ∈ trace ∧ p.2 ∈ trace ∧ 2 ≤ trace.length := by
  obtain ⟨trace, htr, hp⟩ := List.mem_flatMap.mp h
  exact ⟨trace, htr, mem_pairs hp⟩

theorem count_map_filter {α : Type} (l : List α) (key val : α → Fp) (x y : Fp) :
    ((l.filter (fun p => key p = x)).map val).count y
      = l.countP (fun p => key p = x ∧ val p = y) := by
  rw [List.count_eq_countP, List.countP_map, List.countP_filter]
  apply List.countP_congr
  intro p _
  simp only [Bool.and_eq_true, decide_eq_true_eq, Function.comp_apply, beq_iff_eq]
  exact and_comm

/-! ### Exactness -/

/-- The entry decodes to one record for every `y` with a positive count, and
there is no entry when there is no such `y`. -/
def ExactEntry (value : Option (List Byte)) (count : Fp → ℕ) : Prop :=
  match value with
  | none => ∀ y, count y = 0
  | some v => v = encodeRecords (records v) ∧ records v ≠ [] ∧
      ((records v).map Prod.fst).Nodup ∧ ∀ y c, (y, c) ∈ records v ↔ 1 ≤ c ∧ c = count y

def ExactTables (traces : List (List Fp)) : Prop :=
  ∀ x, ExactEntry ((countRuns traces).left.get x) (fun y => (allPairs traces).count (y, x)) ∧
    ExactEntry ((countRuns traces).right.get x) (fun y => (allPairs traces).count (x, y))

theorem records_ofList (ns : List Fp) (h : ∀ y, ns.count y < 2 ^ 64) :
    records (encodeRecords (Tally.ofList ns).entries) = (Tally.ofList ns).entries := by
  rw [records_encode]
  have hid : ∀ e ∈ (Tally.ofList ns).entries, (e.1, e.2 % 256 ^ countSize) = e := by
    intro e he
    obtain ⟨-, hcount⟩ := (Tally.mem_entries_iff _ e.1 e.2).mp he
    rw [Tally.count_ofList] at hcount
    have hlt : e.2 < 256 ^ countSize := by
      rw [← hcount]
      exact h e.1
    rw [Nat.mod_eq_of_lt hlt]
  exact (List.map_congr_left hid).trans (List.map_id _)

theorem exactEntry_tableValue (ns : List Fp) (h : ∀ y, ns.count y < 2 ^ 64) :
    ExactEntry (tableValue ns) (fun y => ns.count y) := by
  by_cases hns : ns = []
  · subst hns
    intro y
    rfl
  · rw [tableValue, if_neg hns]
    have hrec := records_ofList ns h
    refine ⟨by rw [hrec], ?_, ?_, ?_⟩
    · rw [hrec]
      exact fun hnil => hns ((Tally.entries_ofList_eq_nil_iff ns).mp hnil)
    · rw [hrec]
      exact (Tally.ofList ns).nodup
    · intro y c
      rw [hrec, Tally.mem_entries_iff, Tally.count_ofList]
      exact and_congr_right' eq_comm

theorem neighbour_of_mem_records (ns : List Fp) (v : List Byte) (y : Fp) (c : ℕ)
    (hv : tableValue ns = some v) (h : (y, c) ∈ records v) : y ∈ ns := by
  have hns : ns ≠ [] := by
    rintro rfl
    simp [tableValue] at hv
  rw [tableValue, if_neg hns, Option.some.injEq] at hv
  rw [← hv, records_encode] at h
  obtain ⟨e, he, heq⟩ := List.mem_map.mp h
  have hy : e.1 = y := congrArg Prod.fst heq
  obtain ⟨hpos, hcount⟩ := (Tally.mem_entries_iff _ e.1 e.2).mp he
  rw [Tally.count_ofList] at hcount
  rw [← hy]
  exact List.count_pos_iff.mp (by omega)

theorem nulPadded_of_exactEntry {α : Type} (l : List α) (f : α → Fp) (count : Fp → ℕ)
    (hex : ExactEntry (tableValue (l.map (fun p => neighbour (f p)))) count) (y : Fp)
    (hy : 0 < count y) : NulPadded y := by
  cases hv : tableValue (l.map (fun p => neighbour (f p))) with
  | none =>
    rw [hv] at hex
    exact absurd (hex y) (by omega)
  | some v =>
    rw [hv] at hex
    obtain ⟨-, -, -, hmem⟩ := hex
    have hin := neighbour_of_mem_records _ v y (count y) hv ((hmem y (count y)).mpr ⟨hy, rfl⟩)
    obtain ⟨p, -, rfl⟩ := List.mem_map.mp hin
    exact (neighbour_eq_iff _).mp (neighbour_neighbour (f p))

theorem count_map_neighbour {α : Type} [BEq α] [LawfulBEq α] (l : List α) (key val : α → Fp) (x y : Fp)
    (a : α) (ha : ∀ p, p = a ↔ key p = x ∧ val p = y) (hpad : ∀ p ∈ l, NulPadded (val p)) :
    ((l.filter (fun p => key p = x)).map (fun p => neighbour (val p))).count y = l.count a := by
  rw [count_map_filter, List.count_eq_countP]
  apply List.countP_congr
  intro p hp
  rw [decide_eq_true_eq, beq_iff_eq, (neighbour_eq_iff (val p)).mpr (hpad p hp), ha]

/-- The tables are exact exactly when, in every run of two or more chunks, no
fingerprint has a nonzero byte behind a zero byte. -/
theorem exactTables_iff (traces : List (List Fp))
    (hlt : ∀ p, (allPairs traces).count p < 2 ^ 64) :
    ExactTables traces ↔
      ∀ trace ∈ traces, 2 ≤ trace.length → ∀ h ∈ trace, NulPadded h := by
  constructor
  · intro hex trace htr hlen h hmem
    obtain ⟨x, hp | hp⟩ := exists_pair hmem hlen
    · have hcount : 0 < (allPairs traces).count (h, x) :=
        List.count_pos_iff.mpr (List.mem_flatMap.mpr ⟨trace, htr, hp⟩)
      have hleft := (hex x).1
      rw [countRuns_left] at hleft
      exact nulPadded_of_exactEntry _ Prod.fst _ hleft h hcount
    · have hcount : 0 < (allPairs traces).count (x, h) :=
        List.count_pos_iff.mpr (List.mem_flatMap.mpr ⟨trace, htr, hp⟩)
      have hright := (hex x).2
      rw [countRuns_right] at hright
      exact nulPadded_of_exactEntry _ Prod.snd _ hright h hcount
  · intro hpad x
    have hfst : ∀ p ∈ allPairs traces, NulPadded p.1 := by
      intro p hp
      obtain ⟨trace, htr, h1, -, hlen⟩ := mem_allPairs hp
      exact hpad trace htr hlen p.1 h1
    have hsnd : ∀ p ∈ allPairs traces, NulPadded p.2 := by
      intro p hp
      obtain ⟨trace, htr, -, h2, hlen⟩ := mem_allPairs hp
      exact hpad trace htr hlen p.2 h2
    have hleft : ∀ y, (leftOf traces x).count y = (allPairs traces).count (y, x) := fun y =>
      count_map_neighbour _ Prod.snd Prod.fst x y (y, x) (fun p => by
        rw [Prod.ext_iff]; exact and_comm) hfst
    have hright : ∀ y, (rightOf traces x).count y = (allPairs traces).count (x, y) := fun y =>
      count_map_neighbour _ Prod.fst Prod.snd x y (x, y) (fun p => Prod.ext_iff) hsnd
    have hl := exactEntry_tableValue (leftOf traces x) (fun y => by rw [hleft]; exact hlt _)
    have hr := exactEntry_tableValue (rightOf traces x) (fun y => by rw [hright]; exact hlt _)
    rw [countRuns_left, countRuns_right]
    simp only [hleft, hright] at hl hr
    exact ⟨hl, hr⟩

theorem count_lt_of_length {α : Type} [BEq α] (l : List α) (h : l.length < 2 ^ 64)
    (a : α) : l.count a < 2 ^ 64 := lt_of_le_of_lt List.count_le_length h

theorem exactTables_abA : ExactTables
    [[⟨[1, 1, 1, 1, 1, 1], rfl⟩, ⟨[2, 2, 2, 0, 0, 0], rfl⟩, ⟨[1, 1, 1, 1, 1, 1], rfl⟩]] :=
  (exactTables_iff _ (fun p => count_lt_of_length _ (by decide) p)).mpr (by decide)

/-- In the trace 01:00:03:04:05:06, 02:.. the left neighbour of the second chunk
is recorded as 01:00:00:00:00:00. -/
theorem not_exactTables_innerNul :
    ((countRuns [[⟨[1, 0, 3, 4, 5, 6], rfl⟩, ⟨[2, 2, 2, 2, 2, 2], rfl⟩]]).left.get
        ⟨[2, 2, 2, 2, 2, 2], rfl⟩).map records = some [(⟨[1, 0, 0, 0, 0, 0], rfl⟩, 1)] ∧
    ¬ ExactTables [[⟨[1, 0, 3, 4, 5, 6], rfl⟩, ⟨[2, 2, 2, 2, 2, 2], rfl⟩]] := by
  refine ⟨by decide +kernel, ?_⟩
  intro hex
  have hpad := nulPadded_of_exactEntry _ Prod.fst _
    (countRuns_left [[⟨[1, 0, 3, 4, 5, 6], rfl⟩, ⟨[2, 2, 2, 2, 2, 2], rfl⟩]]
      ⟨[2, 2, 2, 2, 2, 2], rfl⟩ ▸ (hex ⟨[2, 2, 2, 2, 2, 2], rfl⟩).1)
    ⟨[1, 0, 3, 4, 5, 6], rfl⟩ (by decide)
  exact absurd hpad (by decide)

/-! ### Totals -/

/-- Non-empty, with distinct fingerprints and positive counts. -/
def WellFormedEntry (value : Option (List Byte)) : Prop :=
  ∀ v, value = some v → v = encodeRecords (records v) ∧ records v ≠ [] ∧
    ((records v).map Prod.fst).Nodup ∧ ∀ e ∈ records v, 1 ≤ e.2

def entrySum (value : Option (List Byte)) : ℕ :=
  match value with
  | none => 0
  | some v => ((records v).map Prod.snd).sum

def frequency (value : Option (List Byte)) : ℕ :=
  match value with
  | none => 0
  | some v => leVal (v.take countSize)

theorem wellFormedEntry_tableValue (ns : List Fp) (h : ∀ y, ns.count y < 2 ^ 64) :
    WellFormedEntry (tableValue ns) := by
  have hex := exactEntry_tableValue ns h
  intro v hv
  rw [hv] at hex
  obtain ⟨henc, hne, hnodup, hmem⟩ := hex
  exact ⟨henc, hne, hnodup, fun e he => ((hmem e.1 e.2).mp he).1⟩

theorem entrySum_tableValue (ns : List Fp) (h : ∀ y, ns.count y < 2 ^ 64) :
    entrySum (tableValue ns) = ns.length := by
  by_cases hns : ns = []
  · subst hns
    rfl
  · rw [tableValue, if_neg hns]
    show ((records _).map Prod.snd).sum = _
    rw [records_ofList ns h]
    exact Tally.total_ofList ns

theorem frequency_counterValue_mod (n : ℕ) : frequency (counterValue n) = n % 2 ^ 64 := by
  unfold counterValue
  split_ifs with h0
  · rw [h0]
    rfl
  · show leVal ((leBytes countSize n).take countSize) = _
    rw [List.take_of_length_le (by rw [leBytes_length]), leVal_leBytes]
    rfl

theorem frequency_counterValue (n : ℕ) (h : n < 2 ^ 64) : frequency (counterValue n) = n := by
  rw [frequency_counterValue_mod, Nat.mod_eq_of_lt h]

theorem countP_eq_count_map {α : Type} (l : List α) (f : α → Fp) (x : Fp) :
    l.countP (fun p => f p = x) = (l.map f).count x := by
  rw [List.count_eq_countP, List.countP_map]
  apply List.countP_congr
  intro p _
  rw [decide_eq_true_eq, Function.comp_apply, beq_iff_eq]

theorem count_eq_tail (trace : List Fp) (x : Fp) :
    trace.count x = (pairs trace).countP (fun p => p.2 = x) +
      if trace.head? = some x then 1 else 0 := by
  have hp : (pairs trace).countP (fun p => p.2 = x) = trace.tail.count x := by
    rw [countP_eq_count_map _ Prod.snd, pairs_map_snd]
  rw [hp]
  cases trace with
  | nil => rfl
  | cons a trace =>
    rw [List.count_cons, List.tail_cons, List.head?_cons]
    congr 1
    simp only [beq_iff_eq, Option.some.injEq]

theorem count_eq_dropLast (trace : List Fp) (x : Fp) :
    trace.count x = (pairs trace).countP (fun p => p.1 = x) +
      if trace.getLast? = some x then 1 else 0 := by
  have hp : (pairs trace).countP (fun p => p.1 = x) = trace.dropLast.count x := by
    rw [countP_eq_count_map _ Prod.fst, pairs_map_fst]
  rw [hp]
  rcases List.eq_nil_or_concat trace with rfl | ⟨init, a, rfl⟩
  · rfl
  · rw [List.concat_eq_append, List.dropLast_concat, List.getLast?_concat, List.count_append,
      List.count_singleton]
    simp only [beq_iff_eq, Option.some.injEq]

theorem count_flatten_split (traces : List (List Fp)) (x : Fp) (q : Fp × Fp → Bool)
    (last : List Fp → Prop) [DecidablePred last]
    (h : ∀ trace : List Fp, trace.count x
      = (pairs trace).countP q + if last trace then 1 else 0) :
    traces.flatten.count x = (allPairs traces).countP q + traces.countP (fun t => last t) := by
  induction traces with
  | nil => rfl
  | cons trace traces ih =>
    rw [List.flatten_cons, List.count_append, ih, h trace]
    simp only [allPairs, List.flatMap_cons, List.countP_append, List.countP_cons,
      decide_eq_true_eq]
    omega

theorem leftOf_length (traces : List (List Fp)) (x : Fp) :
    (leftOf traces x).length = (allPairs traces).countP (fun p => p.2 = x) := by
  rw [leftOf, List.length_map, List.countP_eq_length_filter]

theorem rightOf_length (traces : List (List Fp)) (x : Fp) :
    (rightOf traces x).length = (allPairs traces).countP (fun p => p.1 = x) := by
  rw [rightOf, List.length_map, List.countP_eq_length_filter]

/-- Every occurrence of a chunk is the first of its run or counted on its left,
and the last of its run or counted on its right. -/
theorem frequency_conserved (traces : List (List Fp))
    (hlt : ∀ x, traces.flatten.count x < 2 ^ 64) (x : Fp) :
    WellFormedEntry ((countRuns traces).left.get x) ∧
    WellFormedEntry ((countRuns traces).right.get x) ∧
    frequency ((countRuns traces).db.get x) = traces.flatten.count x ∧
    frequency ((countRuns traces).db.get x) = entrySum ((countRuns traces).left.get x)
      + traces.countP (fun trace => trace.head? = some x) ∧
    frequency ((countRuns traces).db.get x) = entrySum ((countRuns traces).right.get x)
      + traces.countP (fun trace => trace.getLast? = some x) := by
  have hx := hlt x
  have hfirst := count_flatten_split traces x (fun p => p.2 = x) (fun t => t.head? = some x)
    (fun trace => count_eq_tail trace x)
  have hlast := count_flatten_split traces x (fun p => p.1 = x) (fun t => t.getLast? = some x)
    (fun trace => count_eq_dropLast trace x)
  have hleft : ∀ y, (leftOf traces x).count y < 2 ^ 64 :=
    count_lt_of_length (leftOf traces x) (by rw [leftOf_length]; omega)
  have hright : ∀ y, (rightOf traces x).count y < 2 ^ 64 :=
    count_lt_of_length (rightOf traces x) (by rw [rightOf_length]; omega)
  rw [countRuns_left, countRuns_right, countRuns_db, frequency_counterValue _ hx,
    entrySum_tableValue _ hleft, entrySum_tableValue _ hright, leftOf_length, rightOf_length]
  exact ⟨wellFormedEntry_tableValue _ hleft, wellFormedEntry_tableValue _ hright, rfl, hfirst,
    hlast⟩

theorem frequency_conserved_twoRuns :
    frequency ((countRuns [[⟨[1, 0, 3, 4, 5, 6], rfl⟩, ⟨[1, 0, 3, 4, 5, 6], rfl⟩],
        [⟨[1, 0, 3, 4, 5, 6], rfl⟩]]).db.get ⟨[1, 0, 3, 4, 5, 6], rfl⟩) = 3 ∧
    entrySum ((countRuns [[⟨[1, 0, 3, 4, 5, 6], rfl⟩, ⟨[1, 0, 3, 4, 5, 6], rfl⟩],
        [⟨[1, 0, 3, 4, 5, 6], rfl⟩]]).left.get ⟨[1, 0, 3, 4, 5, 6], rfl⟩) = 1 := by
  obtain ⟨-, -, hf, hl, -⟩ := frequency_conserved
    [[⟨[1, 0, 3, 4, 5, 6], rfl⟩, ⟨[1, 0, 3, 4, 5, 6], rfl⟩], [⟨[1, 0, 3, 4, 5, 6], rfl⟩]]
    (fun x => count_lt_of_length _ (by decide) x) ⟨[1, 0, 3, 4, 5, 6], rfl⟩
  have h3 : [[(⟨[1, 0, 3, 4, 5, 6], rfl⟩ : Fp), ⟨[1, 0, 3, 4, 5, 6], rfl⟩],
      [⟨[1, 0, 3, 4, 5, 6], rfl⟩]].flatten.count ⟨[1, 0, 3, 4, 5, 6], rfl⟩ = 3 := by decide
  have h2 : [[(⟨[1, 0, 3, 4, 5, 6], rfl⟩ : Fp), ⟨[1, 0, 3, 4, 5, 6], rfl⟩],
      [⟨[1, 0, 3, 4, 5, 6], rfl⟩]].countP
        (fun trace => trace.head? = some ⟨[1, 0, 3, 4, 5, 6], rfl⟩) = 2 := by decide
  rw [hf, h2, h3] at hl
  exact ⟨hf.trans h3, by omega⟩

end FreqAnalysis.Locality
