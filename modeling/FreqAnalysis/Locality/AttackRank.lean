import Mathlib.Data.List.Zip
import FreqAnalysis.Base.Ranking
import FreqAnalysis.Locality.Count
import FreqAnalysis.Locality.AttackInv

/-!
# Ranks in the neighbour analysis

`left_insert` and `right_insert` keep the `v` most frequent neighbours of the
plaintext chunk and of the ciphertext chunk. `main_loop` then drains both heaps
in step, least frequent entries first, until one is empty, and reads the pairs
back from the stacks. When one heap holds more entries, the drain stops before
the most frequent of them come out: rank `i` of the shorter list meets rank
`i + d` of the longer one. The initial analysis drains each heap alone and has
no such shift.
-/

namespace FreqAnalysis.Locality
open Base

/-- The pairs are the entries of one rank after the other, in some order of
equal counts. -/
def RankPaired (v : ℕ) (ms cs : List Node) (ps : List (Node × Node)) : Prop :=
  ∃ l l', Ranks Node.count ms l ∧ Ranks Node.count cs l' ∧ ps = (l.zip l').take v

theorem neighbourPairs_eq (A : Params) (side : Side) (o t : Fp) :
    neighbourPairs A side o t
      = ((topRanked A.v (valueNodes ((A.sideO side).get o))).reverse.zip
          (topRanked A.v (valueNodes ((A.sideT side).get t))).reverse).reverse := by
  rw [topRanked, topRanked, stackOf, stackOf, List.reverse_reverse, List.reverse_reverse]
  rfl

theorem rankPaired_swap {v : ℕ} {ms cs : List Node} {ps : List (Node × Node)} :
    RankPaired v ms cs ps ↔ RankPaired v cs ms (ps.map Prod.swap) := by
  have hone : ∀ {ms cs : List Node} {ps : List (Node × Node)},
      RankPaired v ms cs ps → RankPaired v cs ms (ps.map Prod.swap) := by
    rintro ms cs ps ⟨l, l', hl, hl', rfl⟩
    exact ⟨l', l, hl', hl, by rw [List.map_take, List.zip_swap]⟩
  refine ⟨hone, fun h => ?_⟩
  have hback := hone h
  rw [List.map_map, Prod.swap_swap_eq, List.map_id] at hback
  exact hback

/-! ### Two selections of one length, and of two -/

section Pairing

variable {v : ℕ} {ms cs r rest r' rest' : List Node}

theorem rankPaired_of_length_eq (hm : Ranks Node.count ms (r ++ rest))
    (hc : Ranks Node.count cs (r' ++ rest')) (hr : r.length = min v ms.length)
    (heq : r.length = r'.length) : RankPaired v ms cs (r.zip r') := by
  refine ⟨r ++ rest, r' ++ rest', hm, hc, ?_⟩
  have hlen := hm.perm.length_eq
  rw [List.length_append] at hlen
  have hzip : (r.zip r').length = r.length := by
    rw [List.length_zip]
    omega
  rw [List.zip_append heq]
  rcases Nat.lt_or_ge r.length v with hlt | hge
  · -- fewer than `v` entries: nothing was left out
    have hnil : rest = [] := List.eq_nil_of_length_eq_zero (by omega)
    rw [hnil, List.zip_nil_left, List.append_nil, List.take_of_length_le (by omega)]
  · rw [List.take_left' (by omega)]

theorem rankPaired_of_topTied (hm : Ranks Node.count ms (r ++ rest))
    (hc : Ranks Node.count cs r') (hv : r'.length ≤ v) (hle : r'.length ≤ r.length)
    (ht : TopTied Node.count r.length ms) :
    RankPaired v ms cs ((r.drop (r.length - r'.length)).zip r') := by
  obtain ⟨c, hmax, htied⟩ := hm.eq_of_topTied ht
  refine ⟨_, r', hm.rotate (r.length - r'.length) hmax htied, hc, ?_⟩
  have hlen : (r.drop (r.length - r'.length)).length = r'.length := by
    rw [List.length_drop]
    omega
  rw [zip_append_left hlen, List.take_of_length_le]
  rw [List.length_zip]
  omega

theorem topTied_of_rankPaired (hm : Ranks Node.count ms (r ++ rest))
    (hc : Ranks Node.count cs r') (hv : r'.length ≤ v) (hlt : r'.length < r.length)
    (hne : 0 < r'.length)
    (h : RankPaired v ms cs ((r.drop (r.length - r'.length)).zip r')) :
    TopTied Node.count r.length ms := by
  obtain ⟨l, l', hl, hl', heq⟩ := h
  have hlen' : l'.length = r'.length := by rw [hl'.perm.length_eq, ← hc.perm.length_eq]
  have hlenl : l.length = r.length + rest.length := by
    rw [hl.perm.length_eq, ← hm.perm.length_eq, List.length_append]
  have hdrop : (r.drop (r.length - r'.length)).length = r'.length := by
    rw [List.length_drop]
    omega
  -- the plaintext chunks of the pairs begin a ranking
  have hfst : r.drop (r.length - r'.length) = l.take r'.length := by
    have hzip : (l.zip l').map Prod.fst = l.take r'.length := by
      rw [List.zip_eq_zip_take_min, List.map_fst_zip (by grind), hlen',
        min_eq_right (by omega : r'.length ≤ l.length)]
    have hmap := congrArg (List.map Prod.fst) heq
    rw [List.map_fst_zip (by omega), List.map_take, hzip, List.take_take, min_eq_right hv] at hmap
    exact hmap
  have hcounts : l.map Node.count = (r ++ rest).map Node.count := hl.map_count_eq hm
  have hshift : (r.map Node.count).drop (r.length - r'.length)
      = (r.map Node.count).take r'.length := by
    rw [← List.map_drop, hfst, List.map_take, hcounts, List.map_append,
      List.take_append_of_le_length (by rw [List.length_map]; omega)]
  have hdesc : (r.map Node.count).Pairwise (fun a b => b ≤ a) :=
    List.pairwise_map.mpr (List.pairwise_append.mp hm.desc).1
  obtain ⟨a, r0, rfl⟩ := List.exists_cons_of_length_pos (by omega : 0 < r.length)
  refine hm.topTied hm.count_le_head ?_
  intro e he
  obtain ⟨j, hj, rfl⟩ := List.getElem_of_mem he
  have hconst := eq_of_drop_eq_take (by omega) hne (by rw [List.length_map]; omega) hdesc hshift j
    (by rw [List.length_map]; exact hj)
  rw [List.getElem_map, List.getElem_map] at hconst
  exact hconst

theorem rankPaired_iff_of_length_lt (hm : Ranks Node.count ms (r ++ rest))
    (hc : Ranks Node.count cs (r' ++ rest')) (hr : r.length = min v ms.length)
    (hr' : r'.length = min v cs.length) (hlt : r'.length < r.length) :
    RankPaired v ms cs ((r.drop (r.length - r'.length)).zip r')
      ↔ cs = [] ∨ TopTied Node.count r.length ms := by
  have hlen := hc.perm.length_eq
  rw [List.length_append] at hlen
  have hnil : rest' = [] := List.eq_nil_of_length_eq_zero (by omega)
  rw [hnil, List.append_nil] at hc
  have hv : r'.length ≤ v := by omega
  rcases Nat.eq_zero_or_pos r'.length with hzero | hpos
  · have hr0 : r' = [] := List.eq_nil_of_length_eq_zero hzero
    have hcs : cs = [] := List.eq_nil_of_length_eq_zero (by omega)
    refine iff_of_true ?_ (Or.inl hcs)
    refine ⟨r ++ rest, r', hm, hc, ?_⟩
    rw [hr0, List.zip_nil_right, List.zip_nil_right, List.take_nil]
  · have hcs : cs ≠ [] := by
      intro h0
      rw [h0, List.length_nil] at hlen
      omega
    constructor
    · exact fun h => Or.inr (topTied_of_rankPaired hm hc hv hlt hpos h)
    · intro h
      exact rankPaired_of_topTied hm hc hv hlt.le (h.resolve_left hcs)

end Pairing

/-- Both analyses keep equally many neighbours, or one table is empty, or all
the neighbours kept from the larger table are equally frequent. -/
def Aligned (v : ℕ) (ms cs : List Node) : Prop :=
  ms = [] ∨ cs = [] ∨ min v ms.length = min v cs.length ∨
    (min v cs.length < min v ms.length ∧ TopTied Node.count (min v ms.length) ms) ∨
    (min v ms.length < min v cs.length ∧ TopTied Node.count (min v cs.length) cs)

theorem aligned_comm (v : ℕ) (ms cs : List Node) : Aligned v ms cs ↔ Aligned v cs ms := by
  unfold Aligned
  grind

theorem aligned_of_eq {v : ℕ} {ms cs : List Node} (h : min v ms.length = min v cs.length) :
    Aligned v ms cs := Or.inr (Or.inr (Or.inl h))

theorem aligned_iff_of_lt {v : ℕ} {ms cs : List Node}
    (hlt : min v cs.length < min v ms.length) :
    Aligned v ms cs ↔ cs = [] ∨ TopTied Node.count (min v ms.length) ms := by
  unfold Aligned
  constructor
  · rintro (h | h | h | h | h)
    · rw [h, List.length_nil] at hlt
      omega
    · exact Or.inl h
    · omega
    · exact Or.inr h.2
    · omega
  · rintro (h | h)
    · exact Or.inr (Or.inl h)
    · exact Or.inr (Or.inr (Or.inr (Or.inl ⟨hlt, h⟩)))

theorem rankPaired_topRanked_of_lt {v : ℕ} (hv : 0 < v) {ms cs : List Node}
    (hlt : min v cs.length < min v ms.length) :
    RankPaired v ms cs ((topRanked v ms).reverse.zip (topRanked v cs).reverse).reverse
      ↔ Aligned v ms cs := by
  obtain ⟨rest, hm⟩ := topRanked_ranks hv ms
  obtain ⟨rest', hc⟩ := topRanked_ranks hv cs
  have hr := topRanked_length hv ms
  have hr' := topRanked_length hv cs
  rw [reverse_zip_reverse_of_length_le (by omega),
    rankPaired_iff_of_length_lt hm hc hr hr' (by omega), hr, aligned_iff_of_lt hlt]

theorem rankPaired_topRanked_iff {v : ℕ} (hv : 0 < v) (ms cs : List Node) :
    RankPaired v ms cs ((topRanked v ms).reverse.zip (topRanked v cs).reverse).reverse
      ↔ Aligned v ms cs := by
  rcases Nat.lt_trichotomy (min v cs.length) (min v ms.length) with hlt | heq | hlt
  · exact rankPaired_topRanked_of_lt hv hlt
  · obtain ⟨rest, hm⟩ := topRanked_ranks hv ms
    obtain ⟨rest', hc⟩ := topRanked_ranks hv cs
    have hr := topRanked_length hv ms
    have hlen : (topRanked v ms).length = (topRanked v cs).length := by
      rw [hr, topRanked_length hv cs, heq]
    rw [reverse_zip_reverse hlen]
    exact iff_of_true (rankPaired_of_length_eq hm hc hr hlen) (aligned_of_eq heq.symm)
  · rw [rankPaired_swap, List.map_reverse, List.zip_swap, aligned_comm]
    exact rankPaired_topRanked_of_lt hv hlt

/-- The candidates of a neighbour analysis are paired by rank exactly when both
tables are cut to the same length, or ties hide the shift. -/
theorem neighbour_ranks_iff (A : Params) (side : Side) (o t : Fp) :
    RankPaired A.v (valueNodes ((A.sideO side).get o)) (valueNodes ((A.sideT side).get t))
        (neighbourPairs A side o t)
      ↔ Aligned A.v (valueNodes ((A.sideO side).get o)) (valueNodes ((A.sideT side).get t)) := by
  rw [neighbourPairs_eq]
  exact rankPaired_topRanked_iff A.v_pos _ _

/-! ### What a run examines -/

/-- The pairs `seen` of a neighbour analysis of the two fronts were examined; then the
ciphertext chunk was pushed or had been pushed before. -/
def Examined (A : Params) (s : State) (side : Side) (seen rest : List (Node × Node)) : Prop :=
  (∃ o t, s.qO.head? = some o ∧ s.qT.head? = some t ∧
    neighbourPairs A side o.node.key t.node.key = seen ++ rest) ∧
  ∀ p ∈ seen, p.2.key ∈ s.uniq.keys

theorem Examined.enter {A : Params} {s : State} {side side' : Side}
    {seen rest rest' : List (Node × Node)} (h : Examined A s side seen rest)
    (hpc : (enter A side' s).pc = .infer side' rest') :
    Examined A (enter A side' s) side' [] rest' := by
  obtain ⟨⟨o, t, hO, hT, -⟩, -⟩ := h
  refine ⟨⟨o, t, hO, hT, ?_⟩, fun p hp => absurd hp List.not_mem_nil⟩
  rw [List.head?_eq_some_iff] at hO hT
  obtain ⟨qO, hO⟩ := hO
  obtain ⟨qT, hT⟩ := hT
  simp only [Locality.enter, hO, hT] at hpc
  exact (Pc.infer.inj hpc).2

theorem Reachable.examined {A : Params} {s : State} (h : Reachable A s) :
    ∀ side rest, s.pc = .infer side rest → ∃ seen, Examined A s side seen rest := by
  refine h.induct (I := fun s => ∀ side rest, s.pc = .infer side rest →
    ∃ seen, Examined A s side seen rest) ?_ fun s s' hr hi hmove => ?_
  · intro side rest hpc
    rw [Locality.start] at hpc
    dsimp only at hpc
    split_ifs at hpc
  intro side' rest' hpc
  cases hmove with
  | enterT heq | pushO n tmp heq | enterLoop heq | pushT n tmp heq | stop heq _ => cases hpc
  | judge o t qO qT heq hO hT =>
    obtain ⟨rfl, rfl⟩ := Pc.infer.inj hpc
    exact ⟨[], ⟨o, t, by simp [Locality.judge, hO], by simp [Locality.judge, hT], rfl⟩,
      fun p hp => absurd hp List.not_mem_nil⟩
  | skip side o t rest heq hseen =>
    obtain ⟨rfl, rfl⟩ := Pc.infer.inj hpc
    obtain ⟨seen, ⟨a, b, hO, hT, hpairs⟩, hall⟩ := hi side ((o, t) :: rest) heq
    exact ⟨seen ++ [(o, t)], ⟨a, b, hO, hT, by rw [hpairs]; simp⟩, forall_mem_concat hall hseen⟩
  | push side o t rest heq hnew hlimit =>
    obtain ⟨rfl, rfl⟩ := Pc.infer.inj hpc
    obtain ⟨seen, ⟨a, b, hO, hT, hpairs⟩, hall⟩ := hi side ((o, t) :: rest) heq
    have hkeys : ∀ x, x = t.key ∨ x ∈ s.uniq.keys → x ∈ (s.uniq.put t.key ()).keys :=
      fun x hx => (s.uniq.mem_keys_put t.key x ()).mpr hx
    refine ⟨seen ++ [(o, t)], ⟨a, b, ?_, ?_, by rw [hpairs]; simp⟩, ?_⟩
    · simp [State.pushPair, List.head?_append, hO]
    · simp [State.pushPair, List.head?_append, hT]
    · exact forall_mem_concat (fun p hp => hkeys _ (Or.inr (hall p hp))) (hkeys _ (Or.inl rfl))
  | leave side rest heq =>
    obtain ⟨seen, hseen⟩ := hi side rest heq
    cases side with
    | left =>
      have hside : side' = .right := by
        obtain ⟨rest'', hright⟩ := (enter_frame A .right s).2.2.2.2.2
        exact (Pc.infer.inj (hpc.symm.trans hright)).1
      subst hside
      exact ⟨[], hseen.enter hpc⟩
    | right => cases hpc

/-- The candidates that a run examines are the pairs of the neighbour analysis of the two
fronts, from the first one on: it goes on to the next one unless `q_o` has reached its
limit. So with aligned tables they are paired by rank. -/
theorem candidates_examined (A : Params) (s : State) (h : Reachable A s) (side : Side)
    (rest : List (Node × Node)) (hpc : s.pc = .infer side rest) :
    ∃ o t seen, s.qO.head? = some o ∧ s.qT.head? = some t ∧
      neighbourPairs A side o.node.key t.node.key = seen ++ rest ∧
      (∀ p ∈ seen, p.2.key ∈ s.uniq.keys) ∧
      (∀ p rest' s', rest = p :: rest' → step A s = some s' →
        s'.pc = .infer side rest' ∨ A.w < s.qO.length + 1) ∧
      (Aligned A.v (valueNodes ((A.sideO side).get o.node.key))
          (valueNodes ((A.sideT side).get t.node.key)) →
        RankPaired A.v (valueNodes ((A.sideO side).get o.node.key))
          (valueNodes ((A.sideT side).get t.node.key)) (seen ++ rest)) := by
  obtain ⟨seen, ⟨o, t, hO, hT, hpairs⟩, hall⟩ := h.examined side rest hpc
  refine ⟨o, t, seen, hO, hT, hpairs, hall, ?_, fun haligned => ?_⟩
  · rintro ⟨a, b⟩ rest' s' rfl hstep
    simp only [step, hpc] at hstep
    split_ifs at hstep with hseen hlimit
    · cases hstep
      exact Or.inl rfl
    · exact Or.inr hlimit
    · cases hstep
      exact Or.inl rfl
  · rw [← hpairs, neighbourPairs_eq]
    exact (rankPaired_topRanked_iff A.v_pos _ _).mpr haligned

/-- The tables of the traces a x a x b x and c x. -/
def shiftedO : Tables :=
  countRuns [[.filled 1, .filled 9, .filled 1, .filled 9, .filled 2, .filled 9]]

def shiftedT : Tables := countRuns [[.filled 3, .filled 9]]

def shiftedParams : Params where
  origin := shiftedO.db
  leftO := shiftedO.left
  rightO := shiftedO.right
  target := shiftedT.db
  leftT := shiftedT.left
  rightT := shiftedT.right
  u := 1
  v := 2
  w := 10
  u_pos := Nat.one_pos
  v_pos := Nat.two_pos
  leakage := some fun _ => true
  truth := .own

/-- The leaked pair of x comes first. The only left neighbour of x in the ciphertext
trace then meets b, which precedes x once, and not a, which precedes it twice. -/
theorem neighbour_ranks_shifted :
    (∃ s, Reachable shiftedParams s ∧
      s.pc = .infer .left (neighbourPairs shiftedParams .left (.filled 9) (.filled 9))) ∧
      neighbourPairs shiftedParams .left (.filled 9) (.filled 9)
        = [(⟨.filled 2, 1⟩, ⟨.filled 3, 1⟩)] ∧
      ¬ RankPaired shiftedParams.v (valueNodes (shiftedParams.leftO.get (.filled 9)))
        (valueNodes (shiftedParams.leftT.get (.filled 9)))
        (neighbourPairs shiftedParams .left (.filled 9) (.filled 9)) := by
  have hpairs : neighbourPairs shiftedParams .left (.filled 9) (.filled 9)
      = [(⟨.filled 2, 1⟩, ⟨.filled 3, 1⟩)] := by
    decide +kernel
  have hM : valueNodes (shiftedParams.leftO.get (.filled 9))
      = [⟨.filled 1, 2⟩, ⟨.filled 2, 1⟩] := by
    decide +kernel
  have hfirst : (step shiftedParams (start shiftedParams)).map State.pc
      = some (.infer .left [(⟨.filled 2, 1⟩, ⟨.filled 3, 1⟩)]) := by
    decide +kernel
  obtain ⟨s, hs, hpc⟩ := Option.map_eq_some_iff.mp hfirst
  refine ⟨⟨s, Reachable.start.step hs, by rw [hpairs, hpc]⟩, hpairs, ?_⟩
  rw [hpairs, hM]
  rintro ⟨l, l', hl, -, heq⟩
  -- the first plaintext chunk of a ranking has count 2
  have hcounts : l.map Node.count = [2, 1] := hl.map_count_eq ⟨.refl _, by decide⟩
  cases l with
  | nil => cases hcounts
  | cons a l =>
    cases l' with
    | nil => cases heq
    | cons b l' =>
      have hhead : (⟨.filled 2, 1⟩, ⟨.filled 3, 1⟩) = (a, b) := (List.cons.inj heq).1
      obtain ⟨ha, -⟩ := Prod.mk.inj hhead
      rw [← ha] at hcounts
      cases hcounts

end FreqAnalysis.Locality
