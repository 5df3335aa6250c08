import FreqAnalysis.Base.Worklist
import FreqAnalysis.Locality.AttackRename

/-!
# How far the inferences spread

Every ciphertext chunk that is ever inferred stands beside another one in the
ciphertext stream, down to the ones `main_loop` starts with. Against a renamed
stream, and with room for all neighbours in the analysis and in the queues, the
converse holds too: when the loop ends, every chunk that can be reached from the
first ones is inferred.
-/

namespace FreqAnalysis.Locality
open Base

/-- The chunks that the database of one side records for `t`. -/
def besideT (A : Params) (side : Side) (t : Fp) : List Fp :=
  (valueNodes ((A.sideT side).get t)).map Node.key

def Beside (A : Params) (t t' : Fp) : Prop := ∃ side, t' ∈ besideT A side t

/-- The chunks on `q_t` when the main loop is entered. -/
def seeds (A : Params) : List Fp :=
  if A.leakage.isNone then (initial A.u A.target).map Node.key else (statDb A).pushed

def inferable (A : Params) : Set Fp := spread (Beside A) {t | t ∈ seeds A}

theorem mem_besideT_of_mem {A : Params} {side : Side} {x t : Fp} {p : Node × Node}
    (h : p ∈ neighbourPairs A side x t) : p.2.key ∈ besideT A side t := by
  have hzip := List.of_mem_zip (List.mem_reverse.mp h)
  exact List.mem_map.mpr
    ⟨p.2, Heap.mem_select cmp ((Heap.drain_perm cmp _).mem_iff.mp hzip.2), rfl⟩

/-! ### Nothing else is inferred -/

structure Grown (A : Params) (s : State) : Prop where
  seeds : ∀ t ∈ seeds A, t ∈ s.pushed ++ waiting A s.pc
  sound : ∀ t ∈ s.pushed ++ waiting A s.pc, t ∈ inferable A
  offered : ∀ side rest, s.pc = .infer side rest → ∀ e, s.qT.head? = some e →
    ∀ p ∈ rest, p.2.key ∈ besideT A side e.node.key

section Grown

variable {A : Params} {s s' : State}

theorem grown_start (A : Params) : Grown A (start A) := by
  have hwait : (start A).pushed ++ waiting A (start A).pc = seeds A := by
    unfold start seeds
    cases hl : A.leakage with
    | none =>
      show (statDb A).pushed ++ _ = _
      rw [(statDb_unleaked hl).1]
      rfl
    | some r => exact List.append_nil _
  refine ⟨fun t ht => hwait ▸ ht, fun t ht => ?_, ?_⟩
  · rw [hwait] at ht
    exact seeds_subset_spread ht
  · intro side rest hpc
    unfold start at hpc
    cases hl : A.leakage with
    | none => rw [hl] at hpc; exact Pc.noConfusion hpc
    | some r => rw [hl] at hpc; exact Pc.noConfusion hpc

theorem front_mem_pushed (hi : InferInv A s) {e : Entry} (he : s.qT.head? = some e) :
    e.node.key ∈ s.pushed := by
  have hmem : e.node.key ∈ s.pushed.drop s.involve := by
    rw [hi.queue]
    exact List.mem_map.mpr ⟨e, List.mem_of_head? he, rfl⟩
  exact List.mem_of_mem_drop hmem

theorem Grown.moves (hr : Reachable A s) (h : Grown A s) (hmove : Moves A s s') : Grown A s' := by
  have hseeds := h.seeds
  have hsound := h.sound
  cases hmove with
  | enterT heq | pushO n tmp heq | enterLoop heq | stop heq _ =>
    rw [heq] at hseeds hsound
    exact ⟨hseeds, hsound, fun _ _ hpc => Pc.noConfusion hpc⟩
  | pushT n tmp heq =>
    rw [heq] at hseeds hsound
    have hlist : s.pushed ++ waiting A (.initT (n :: tmp))
        = (s.pushed ++ [n.key]) ++ waiting A (.initT tmp) := by simp [waiting]
    rw [hlist] at hseeds hsound
    exact ⟨hseeds, hsound, fun _ _ hpc => Pc.noConfusion hpc⟩
  | judge o t qO qT heq hO hT =>
    rw [heq] at hseeds hsound
    refine ⟨hseeds, hsound, ?_⟩
    intro side rest hpc e he p hp
    cases hpc
    have ht : s.qT.head? = some e := he
    rw [hT, List.head?_cons, Option.some.injEq] at ht
    rw [← ht]
    exact mem_besideT_of_mem hp
  | skip side o t rest heq _ =>
    rw [heq] at hseeds hsound
    refine ⟨hseeds, hsound, ?_⟩
    intro side' rest' hpc e he p hp
    cases hpc
    exact h.offered side _ heq e he p (List.mem_cons_of_mem _ hp)
  | push side o t rest heq _ _ =>
    obtain ⟨-, hT⟩ := hr.inferInv.busy side _ heq
    obtain ⟨e, qT, hT⟩ := List.exists_cons_of_ne_nil hT
    have hfront : s.qT.head? = some e := by rw [hT]; rfl
    rw [heq] at hseeds hsound
    refine ⟨?_, ?_, ?_⟩
    · intro x hx
      have hmem : x ∈ s.pushed := by simpa [waiting] using hseeds x hx
      exact List.mem_append_left _ (List.mem_append_left _ hmem)
    · intro x hx
      have hmem : x ∈ s.pushed ∨ x = t.key := by simpa [waiting, State.pushPair] using hx
      rcases hmem with hold | rfl
      · exact hsound x (List.mem_append_left _ hold)
      · exact spread_next (hsound _ (List.mem_append_left _ (front_mem_pushed hr.inferInv hfront)))
          ⟨side, h.offered side _ heq e hfront _ (List.mem_cons_self ..)⟩
    · intro side' rest' hpc e' he' p hp
      cases hpc
      have hsame : e' = e := by
        simp only [State.pushPair, hT, List.cons_append, List.head?_cons, Option.some.injEq] at he'
        exact he'.symm
      rw [hsame]
      exact h.offered side _ heq e hfront p (List.mem_cons_of_mem _ hp)
  | leave side rest heq =>
    obtain ⟨hO, hT⟩ := hr.inferInv.busy side rest heq
    rw [heq] at hseeds hsound
    cases side with
    | left =>
      obtain ⟨o, qO, hO⟩ := List.exists_cons_of_ne_nil hO
      obtain ⟨t, qT, hT⟩ := List.exists_cons_of_ne_nil hT
      show Grown A (enter A .right s)
      rw [enter_eq .right hO hT]
      refine ⟨hseeds, hsound, ?_⟩
      intro side' rest' hpc e he p hp
      cases hpc
      have ht : s.qT.head? = some e := he
      rw [hT, List.head?_cons, Option.some.injEq] at ht
      rw [← ht]
      exact mem_besideT_of_mem hp
    | right => exact ⟨hseeds, hsound, fun _ _ hpc => Pc.noConfusion hpc⟩

theorem Reachable.grown (h : Reachable A s) : Grown A s :=
  h.induct (grown_start A) (fun _ _ hr hg hmove => hg.moves hr hmove)

end Grown

/-! ### Nothing is missed -/

/-- The analyses keep all neighbours, and the queues have room for all chunks. -/
structure Ample (A : Params) : Prop where
  v : ∀ side x, (valueNodes ((A.sideO side).get x)).length ≤ A.v
  w : (candidates A).length ≤ A.w

structure Covered (A : Params) (s : State) : Prop where
  expanded : ∀ t ∈ s.pushed.take s.involve, ∀ t', Beside A t t' → t' ∈ s.pushed
  left : ∀ rest, s.pc = .infer .right rest → ∀ e, s.qT.head? = some e →
    ∀ t' ∈ besideT A .left e.node.key, t' ∈ s.pushed
  current : ∀ side rest, s.pc = .infer side rest → ∀ e, s.qT.head? = some e →
    ∀ t' ∈ besideT A side e.node.key, t' ∈ s.pushed ∨ t' ∈ rest.map fun p => p.2.key
  ended : s.pc = .done → s.qT = []

section Covered

variable {A : Params} {ρ : Fp → Fp} {s s' : State}

/-- An analysis is left at its end, or for want of room for a new chunk. -/
theorem leave_cases {side : Side} {rest : List (Node × Node)} (hpc : s.pc = .infer side rest)
    (hstep : step A s = some (leave A s side)) :
    rest = [] ∨ ∃ o t rest', rest = (o, t) :: rest' ∧ t.key ∉ s.uniq.keys ∧
      A.w < s.qO.length + 1 := by
  have hleave : ∀ rest', (leave A s side).pc ≠ .infer side rest' := by
    intro rest' heq
    cases side with
    | left =>
      obtain ⟨rest'', hright⟩ := (enter_frame A .right s).2.2.2.2.2
      rw [leave, hright] at heq
      cases heq
    | right => cases heq
  cases rest with
  | nil => exact Or.inl rfl
  | cons p rest' =>
    obtain ⟨o, t⟩ := p
    right
    refine ⟨o, t, rest', rfl, ?_⟩
    simp only [step, hpc] at hstep
    split_ifs at hstep with huniq hlimit
    · rw [Option.some.injEq] at hstep
      exact absurd (congrArg State.pc hstep).symm (hleave rest')
    · rw [← s.uniq.get_eq_none_iff t.key]
      exact ⟨by simpa using huniq, hlimit⟩
    · rw [Option.some.injEq] at hstep
      exact absurd (congrArg State.pc hstep).symm (hleave rest')

theorem InStep.length_eq {qO qT : List Entry} (h : InStep ρ qO qT) : qO.length = qT.length := by
  have := congrArg List.length h
  rw [List.length_map, List.length_map] at this
  exact this.symm

theorem rest_nil_of_leave (h : Renamed A ρ) (ha : Ample A) (hr : Reachable A s) {side : Side}
    {rest : List (Node × Node)} (hpc : s.pc = .infer side rest)
    (hstep : step A s = some (leave A s side)) : rest = [] := by
  rcases leave_cases hpc hstep with hnil | ⟨o, t, rest', hrest, hnew, hlimit⟩
  · exact hnil
  · -- the chunk that finds no room would be one more than there are
    have hi := hr.inferInv
    have hd := hr.drawn (sources_candidates A)
    have hoffer := hd.pc
    rw [hpc, hrest] at hoffer
    have ht : t.key ∈ candidates A := (List.forall_mem_cons.mp hoffer).1.2
    have hnodup : (s.pushed ++ [t.key]).Nodup := by
      rw [← List.concat_eq_append]
      exact hi.nodup.concat fun hmem => hnew ((hi.uniq t.key).mpr hmem)
    have hle := hnodup.length_le_of_subset (forall_mem_concat hd.pushed ht)
    have hpair : InStep ρ s.qO s.qT := by
      have := (hr.tracked h).queues
      rw [hpc] at this
      exact this
    have hlen : s.qT.length ≤ s.pushed.length := by
      have := congrArg List.length hi.queue
      rw [List.length_drop, List.length_map] at this
      omega
    rw [List.length_append, List.length_singleton] at hle
    have := hpair.length_eq
    have := ha.w
    omega

theorem mem_neighbourPairs_of_besideT (h : Renamed A ρ) (ha : Ample A) {side : Side} {x t' : Fp}
    (hx : x ∈ A.origin.keys) (ht : t' ∈ besideT A side (ρ x)) :
    t' ∈ (neighbourPairs A side x (ρ x)).map fun p => p.2.key := by
  rw [besideT, h.sides side x hx, List.map_map] at ht
  obtain ⟨n, hn, rfl⟩ := List.mem_map.mp ht
  have hv := ha.v side x
  -- nothing is dropped by the selection
  obtain ⟨rest, hranks⟩ := topRanked_ranks A.v_pos (valueNodes ((A.sideO side).get x))
  have hlen := topRanked_length A.v_pos (valueNodes ((A.sideO side).get x))
  have htotal := hranks.perm.length_eq
  rw [List.length_append, hlen, min_eq_right hv] at htotal
  have hnil : rest = [] := List.eq_nil_of_length_eq_zero (by omega)
  have hmem := hranks.perm.mem_iff.mpr hn
  rw [hnil, List.append_nil] at hmem
  rw [h.neighbourPairs_eq side hx, List.map_map]
  exact List.mem_map.mpr ⟨n, hmem, rfl⟩

theorem covered_start (A : Params) : Covered A (start A) := by
  have hpc : ∀ side rest, ¬ (start A).pc = .infer side rest := by
    intro side rest hpc
    unfold start at hpc
    cases hl : A.leakage with
    | none => rw [hl] at hpc; exact Pc.noConfusion hpc
    | some r => rw [hl] at hpc; exact Pc.noConfusion hpc
  refine ⟨?_, fun rest h => absurd h (hpc _ rest), fun side rest h => absurd h (hpc side rest), ?_⟩
  · intro t ht
    have hzero : (start A).involve = 0 := (statDb_inv A).fresh.1
    rw [hzero, List.take_zero] at ht
    exact absurd ht List.not_mem_nil
  · intro hdone
    unfold start at hdone
    cases hl : A.leakage with
    | none => rw [hl] at hdone; exact Pc.noConfusion hdone
    | some r => rw [hl] at hdone; exact Pc.noConfusion hdone

theorem Covered.concat (hi : InferInv A s) (h : Covered A s) (x : Fp) :
    ∀ t ∈ (s.pushed ++ [x]).take s.involve, ∀ t', Beside A t t' → t' ∈ s.pushed ++ [x] := by
  intro t ht t' hb
  rw [List.take_append_of_le_length hi.involve_le] at ht
  exact List.mem_append_left _ (h.expanded t ht t' hb)

theorem Covered.step (h : Renamed A ρ) (ha : Ample A) (hr : Reachable A s) (hc : Covered A s)
    (hstep : step A s = some s') : Covered A s' := by
  have hi := hr.inferInv
  have hm := hr.tracked h
  cases step_moves hstep with
  | enterT heq | pushO n tmp heq | enterLoop heq =>
    exact ⟨hc.expanded, fun _ hpc => Pc.noConfusion hpc, fun _ _ hpc => Pc.noConfusion hpc,
      fun hpc => Pc.noConfusion hpc⟩
  | pushT n tmp heq =>
    exact ⟨hc.concat hi n.key, fun _ hpc => Pc.noConfusion hpc, fun _ _ hpc => Pc.noConfusion hpc,
      fun hpc => Pc.noConfusion hpc⟩
  | stop heq hempty =>
    refine ⟨hc.expanded, fun _ hpc => Pc.noConfusion hpc, fun _ _ hpc => Pc.noConfusion hpc, ?_⟩
    intro _
    have hq := hm.queues
    rw [heq] at hq
    have hlen := InStep.length_eq (ρ := ρ) hq
    rcases hempty with hO | hT
    · rw [hO, List.length_nil] at hlen
      exact List.eq_nil_of_length_eq_zero hlen.symm
    · exact hT
  | judge o t qO qT heq hO hT =>
    have hq := hm.queues
    rw [heq] at hq
    obtain ⟨hmem, ht⟩ := h.front hr hq hO hT
    refine ⟨hc.expanded, ?_, ?_, fun hpc => Pc.noConfusion hpc⟩
    · intro rest hpc
      cases hpc
    · intro side rest hpc e he t' ht'
      cases hpc
      have hfront : s.qT.head? = some e := he
      rw [hT, List.head?_cons, Option.some.injEq] at hfront
      rw [← hfront, ht] at ht'
      rw [ht]
      exact Or.inr (mem_neighbourPairs_of_besideT h ha hmem ht')
  | skip side o t rest heq hold =>
    refine ⟨hc.expanded, ?_, ?_, fun hpc => Pc.noConfusion hpc⟩
    · intro rest' hpc e he
      cases hpc
      exact hc.left _ heq e he
    · intro side' rest' hpc e he t' ht'
      cases hpc
      rcases hc.current side _ heq e he t' ht' with hin | hin
      · exact Or.inl hin
      · rcases List.mem_cons.mp hin with rfl | hin
        · exact Or.inl ((hi.uniq _).mp hold)
        · exact Or.inr hin
  | push side o t rest heq _ _ =>
    obtain ⟨-, hT⟩ := hi.busy side _ heq
    obtain ⟨e, qT, hT⟩ := List.exists_cons_of_ne_nil hT
    have hfront : s.qT.head? = some e := by rw [hT]; rfl
    have hsame : ∀ e', (s.qT ++ [(⟨t, .neighbour s.pushed.length⟩ : Entry)]).head? = some e' →
        s.qT.head? = some e' := by
      intro e' he'
      rw [hT] at he' ⊢
      exact he'
    refine ⟨hc.concat hi t.key, ?_, ?_, fun hpc => Pc.noConfusion hpc⟩
    · intro rest' hpc e' he' t' ht'
      cases hpc
      exact List.mem_append_left _ (hc.left _ heq e' (hsame e' he') t' ht')
    · intro side' rest' hpc e' he' t' ht'
      cases hpc
      rcases hc.current side _ heq e' (hsame e' he') t' ht' with hin | hin
      · exact Or.inl (List.mem_append_left _ hin)
      · rcases List.mem_cons.mp hin with rfl | hin
        · exact Or.inl (List.mem_append_right _ (List.mem_singleton_self _))
        · exact Or.inr hin
  | leave side rest heq =>
    have hnil := rest_nil_of_leave h ha hr heq hstep
    subst hnil
    obtain ⟨hO, hT⟩ := hi.busy side _ heq
    obtain ⟨o, qO, hO⟩ := List.exists_cons_of_ne_nil hO
    obtain ⟨t, qT, hT⟩ := List.exists_cons_of_ne_nil hT
    have hfront : s.qT.head? = some t := by rw [hT]; rfl
    have hq := hm.queues
    rw [heq] at hq
    obtain ⟨hmem, ht⟩ := h.front hr hq hO hT
    have hside : ∀ t' ∈ besideT A side t.node.key, t' ∈ s.pushed := by
      intro t' ht'
      rcases hc.current side _ heq t hfront t' ht' with hin | hin
      · exact hin
      · exact absurd hin List.not_mem_nil
    cases side with
    | left =>
      show Covered A (enter A .right s)
      rw [enter_eq .right hO hT]
      refine ⟨hc.expanded, ?_, ?_, fun hpc => Pc.noConfusion hpc⟩
      · intro rest hpc e he
        cases hpc
        have he' : s.qT.head? = some e := he
        rw [hfront, Option.some.injEq] at he'
        rw [← he']
        exact hside
      · intro side rest hpc e he t' ht'
        cases hpc
        have he' : s.qT.head? = some e := he
        rw [hfront, Option.some.injEq] at he'
        rw [← he', ht] at ht'
        rw [ht]
        exact Or.inr (mem_neighbourPairs_of_besideT h ha hmem ht')
    | right =>
      refine ⟨?_, fun _ hpc => Pc.noConfusion hpc, fun _ _ hpc => Pc.noConfusion hpc,
        fun hpc => Pc.noConfusion hpc⟩
      -- the front of the queue is expanded now
      show ∀ x ∈ s.pushed.take (s.involve + 1), ∀ t', Beside A x t' → t' ∈ s.pushed
      have htake : s.pushed.take (s.involve + 1) = s.pushed.take s.involve ++ [t.node.key] := by
        rw [List.take_add, hi.queue, hT]
        rfl
      rw [htake]
      refine forall_mem_concat hc.expanded ?_
      rintro t' ⟨side, hb⟩
      cases side with
      | left => exact hc.left _ heq t hfront t' hb
      | right => exact hside t' hb

theorem Reachable.covered (h : Renamed A ρ) (ha : Ample A) (hr : Reachable A s) : Covered A s := by
  induction hr with
  | start => exact covered_start A
  | step hr hstep ih => exact ih.step h ha hr hstep

/-- What is inferred in the end is what can be reached from the first chunks. -/
theorem pushed_eq_inferable (h : Renamed A ρ) (ha : Ample A) (hr : Reachable A s)
    (hdone : s.pc = .done) : s.involve = s.pushed.length ∧ {t | t ∈ s.pushed} = inferable A := by
  have hc := hr.covered h ha
  have hi := hr.inferInv
  have hg := hr.grown
  have hwait : s.pushed ++ waiting A s.pc = s.pushed := by
    rw [hdone]
    exact List.append_nil _
  have hall : s.pushed.length ≤ s.involve := by
    have hq := hi.queue
    rw [hc.ended hdone, List.map_nil] at hq
    exact List.drop_eq_nil_iff.mp hq
  refine ⟨le_antisymm hi.involve_le hall, ?_⟩
  apply eq_spread
  · intro t ht
    have := hg.seeds t ht
    rw [hwait] at this
    exact this
  · intro t ht
    apply hg.sound t
    rw [hwait]
    exact ht
  · intro t ht t' hb
    apply hc.expanded t _ t' hb
    rw [List.take_of_length_le hall]
    exact ht

end Covered
end FreqAnalysis.Locality
