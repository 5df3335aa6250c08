import FreqAnalysis.Locality.AttackRank
import FreqAnalysis.Locality.AttackRate

/-!
# Attacking a renamed stream

Deterministic encryption gives every plaintext chunk one ciphertext chunk, so the
databases of the ciphertext stream are those of the plaintext stream with other
names for the chunks. When the adversary's auxiliary databases are those of the
plaintext stream itself, `main_loop` pairs every chunk with its own encryption:
the analysis of the neighbours sees the counts only, and the counts agree.
-/

namespace FreqAnalysis.Locality
open Base

def Node.rename (ρ : Fp → Fp) (n : Node) : Node := ⟨ρ n.key, n.count⟩

theorem cmp_rename (ρ : Fp → Fp) (a b : Node) : cmp (a.rename ρ) (b.rename ρ) = cmp a b := rfl

theorem topRanked_rename (ρ : Fp → Fp) (v : ℕ) (ns : List Node) :
    topRanked v (ns.map (Node.rename ρ)) = (topRanked v ns).map (Node.rename ρ) := by
  rw [topRanked, topRanked, stackOf, stackOf, Heap.select_map (cmp_rename ρ),
    Heap.drain_map (cmp_rename ρ), List.map_reverse]

/-- `ρ` names the ciphertext chunk of every plaintext chunk of `origin`. -/
structure Renamed (A : Params) (ρ : Fp → Fp) : Prop where
  closed : ∀ side, ∀ x ∈ recordKeys (A.sideO side), x ∈ A.origin.keys
  keys : ∀ t ∈ A.target.keys, ∃ x ∈ A.origin.keys, ρ x = t
  plain : ∀ x ∈ A.origin.keys, A.plain (ρ x) = some x
  seeds : A.leakage = none →
    (initial A.u A.target).map Node.key = (initial A.u A.origin).map fun n => ρ n.key
  sides : ∀ side, ∀ x ∈ A.origin.keys,
    valueNodes ((A.sideT side).get (ρ x)) = (valueNodes ((A.sideO side).get x)).map (Node.rename ρ)

namespace Renamed

variable {A : Params} {ρ : Fp → Fp}

theorem neighbourPairs_eq (h : Renamed A ρ) (side : Side) {x : Fp} (hx : x ∈ A.origin.keys) :
    neighbourPairs A side x (ρ x)
      = (topRanked A.v (valueNodes ((A.sideO side).get x))).map fun n => (n, n.rename ρ) := by
  have hlen : ∀ l : List Node, l.length = (l.map (Node.rename ρ)).length :=
    fun l => (List.length_map _).symm
  have hzip : ∀ l : List Node, l.zip (l.map (Node.rename ρ)) = l.map fun n => (n, n.rename ρ) := by
    intro l
    have hmap : (l.map id).zip (l.map (Node.rename ρ)) = l.map fun n => (n, n.rename ρ) :=
      List.zip_map'
    rw [List.map_id] at hmap
    exact hmap
  rw [Locality.neighbourPairs_eq, h.sides side x hx, topRanked_rename,
    reverse_zip_reverse (hlen _), hzip]

theorem sources (h : Renamed A ρ) :
    Sources A (fun x => x ∈ A.origin.keys) (fun _ => True) :=
  ⟨fun _ hx => hx, h.closed, fun _ _ => trivial, fun _ _ _ => trivial⟩

end Renamed

/-- The queues hold a chunk and its encryption at the same places. -/
def InStep (ρ : Fp → Fp) (qO qT : List Entry) : Prop :=
  qT.map (fun e => e.node.key) = qO.map fun e => ρ e.node.key

theorem InStep.concat {ρ : Fp → Fp} {qO qT : List Entry} (h : InStep ρ qO qT) {o t : Entry}
    (ht : t.node.key = ρ o.node.key) : InStep ρ (qO ++ [o]) (qT ++ [t]) := by
  unfold InStep at *
  rw [List.map_append, List.map_append, h, List.map_singleton, List.map_singleton, ht]

theorem InStep.tail {ρ : Fp → Fp} {qO qT : List Entry} (h : InStep ρ qO qT) :
    InStep ρ qO.tail qT.tail := by
  unfold InStep at *
  rw [List.map_tail, h, List.map_tail]

theorem InStep.head {ρ : Fp → Fp} {o t : Entry} {qO qT : List Entry}
    (h : InStep ρ (o :: qO) (t :: qT)) : t.node.key = ρ o.node.key := (List.cons.inj h).1

structure Tracked (A : Params) (ρ : Fp → Fp) (s : State) : Prop where
  queues : ByPhase
    (fun tmp => s.qT = [] ∧ (s.qO.map Entry.node ++ tmp) = initial A.u A.origin)
    (fun tmp => s.qO.map (fun e => ρ e.node.key)
      = s.qT.map (fun e => e.node.key) ++ tmp.map Node.key)
    (InStep ρ s.qO s.qT) s.pc
  rest : ∀ side rest, s.pc = .infer side rest → ∀ p ∈ rest, p.2.key = ρ p.1.key
  correct : s.correct = s.involve + judged s.pc

section Steps

variable {A : Params} {ρ : Fp → Fp}

theorem Renamed.plainKey_eq (h : Renamed A ρ) {t : Fp} (ht : t ∈ A.target.keys) (exs : Fp) :
    plainKey A exs t ∈ A.origin.keys ∧ ρ (plainKey A exs t) = t := by
  obtain ⟨x, hx, rfl⟩ := h.keys t ht
  rw [plainKey_of_plain (h.plain x hx)]
  exact ⟨hx, rfl⟩

theorem inStep_statStep (h : Renamed A ρ) {st : State × Fp} (hst : InStep ρ st.1.qO st.1.qT)
    {e : Fp × List Byte} (he : e.1 ∈ A.target.keys) :
    InStep ρ (statStep A st e).1.qO (statStep A st e).1.qT := by
  unfold statStep
  by_cases hleak : (A.leakage.getD fun _ => false) st.1.total = true
  · simp only [hleak, if_true]
    cases A.origin.get (plainKey A st.2 e.1) with
    | none => exact hst
    | some value => exact hst.concat (t := ⟨⟨e.1, _⟩, _⟩) (h.plainKey_eq he st.2).2.symm
  · simp only [hleak, Bool.false_eq_true, if_false]
    exact hst

theorem inStep_statDb (h : Renamed A ρ) : InStep ρ (statDb A).qO (statDb A).qT := by
  have hfold : ∀ (es : List (Fp × List Byte)) (st : State × Fp), (∀ e ∈ es, e.1 ∈ A.target.keys) →
      InStep ρ st.1.qO st.1.qT →
      InStep ρ (es.foldl (statStep A) st).1.qO (es.foldl (statStep A) st).1.qT := by
    intro es
    induction es with
    | nil => exact fun _ _ hst => hst
    | cons e es ih =>
      intro st hes hst
      obtain ⟨he, hes⟩ := List.forall_mem_cons.mp hes
      exact ih _ hes (inStep_statStep h hst he)
  exact hfold _ _ (fun e he => List.mem_map.mpr ⟨e, he, rfl⟩) rfl

theorem tracked_start (h : Renamed A ρ) : Tracked A ρ (start A) := by
  obtain ⟨hinvolve, hcorrect⟩ := (statDb_inv A).fresh
  have hcount : (start A).correct = (start A).involve + judged (start A).pc := by
    show (statDb A).correct = (statDb A).involve + judged (start A).pc
    rw [hinvolve, hcorrect]
    unfold start
    cases A.leakage with
    | none => rfl
    | some r => rfl
  refine ⟨?_, ?_, hcount⟩
  · unfold start
    cases hl : A.leakage with
    | none =>
      obtain ⟨-, hO, hT⟩ := statDb_unleaked hl
      exact ⟨hT, by rw [hO]; rfl⟩
    | some r => exact inStep_statDb h
  · intro side rest hpc
    unfold start at hpc
    cases hl : A.leakage with
    | none => rw [hl] at hpc; exact Pc.noConfusion hpc
    | some r => rw [hl] at hpc; exact Pc.noConfusion hpc

theorem Renamed.rest_neighbourPairs (h : Renamed A ρ) (side : Side) {x : Fp}
    (hx : x ∈ A.origin.keys) : ∀ p ∈ neighbourPairs A side x (ρ x), p.2.key = ρ p.1.key := by
  intro p hp
  rw [h.neighbourPairs_eq side hx] at hp
  obtain ⟨n, -, rfl⟩ := List.mem_map.mp hp
  rfl

theorem enter_eq {s : State} {o t : Entry} {qO qT : List Entry} (side : Side)
    (hO : s.qO = o :: qO) (hT : s.qT = t :: qT) :
    enter A side s = { s with pc := .infer side (neighbourPairs A side o.node.key t.node.key) } := by
  simp only [enter, hO, hT]

theorem Renamed.front (h : Renamed A ρ) {s : State} (hr : Reachable A s)
    (hq : InStep ρ s.qO s.qT) {o t : Entry} {qO qT : List Entry} (hO : s.qO = o :: qO)
    (hT : s.qT = t :: qT) : o.node.key ∈ A.origin.keys ∧ t.node.key = ρ o.node.key := by
  refine ⟨(hr.drawn h.sources).qO o (hO ▸ List.mem_cons_self ..), ?_⟩
  rw [hO, hT] at hq
  exact hq.head

theorem Tracked.moves (h : Renamed A ρ) {s s' : State} (hr : Reachable A s) (hm : Tracked A ρ s)
    (hmove : Moves A s s') : Tracked A ρ s' := by
  have hq := hm.queues
  have hc := hm.correct
  cases hmove with
  | enterT heq =>
    have hfill := hr.sizes
    rw [heq] at hq hc hfill
    obtain ⟨hT, hO⟩ := hq
    rw [List.append_nil] at hO
    refine ⟨?_, fun _ _ hpc => Pc.noConfusion hpc, hc⟩
    show s.qO.map (fun e => ρ e.node.key) = s.qT.map _ ++ (initial A.u A.target).map Node.key
    rw [hT, List.map_nil, List.nil_append, h.seeds hfill.1, ← hO, List.map_map]
    rfl
  | pushO n tmp heq =>
    rw [heq] at hq hc
    obtain ⟨hT, hO⟩ := hq
    refine ⟨⟨hT, ?_⟩, fun _ _ hpc => Pc.noConfusion hpc, hc⟩
    rw [← hO]
    simp [State.pushO]
  | enterLoop heq =>
    rw [heq] at hq hc
    have hall : s.qO.map (fun e => ρ e.node.key) = s.qT.map (fun e => e.node.key) ++ [] := hq
    rw [List.append_nil] at hall
    exact ⟨hall.symm, fun _ _ hpc => Pc.noConfusion hpc, hc⟩
  | pushT n tmp heq =>
    rw [heq] at hq hc
    refine ⟨?_, fun _ _ hpc => Pc.noConfusion hpc, hc⟩
    show s.qO.map _ = (s.qT ++ [_]).map _ ++ tmp.map Node.key
    rw [List.map_append, List.append_assoc]
    exact hq
  | stop heq _ =>
    rw [heq] at hq hc
    exact ⟨hq, fun _ _ hpc => Pc.noConfusion hpc, hc⟩
  | judge o t qO qT heq hO hT =>
    rw [heq] at hq hc
    obtain ⟨hmem, ht⟩ := h.front hr hq hO hT
    have hplain : A.plain t.node.key = some o.node.key := by rw [ht, h.plain _ hmem]
    refine ⟨hq, ?_, ?_⟩
    · intro side rest hpc
      cases hpc
      rw [ht]
      exact h.rest_neighbourPairs .left hmem
    · show (if A.plain t.node.key = some o.node.key then s.correct + 1 else s.correct) = s.involve + 1
      rw [if_pos hplain, hc]
      rfl
  | skip side o t rest heq _ =>
    rw [heq] at hq hc
    refine ⟨hq, ?_, hc⟩
    intro side' rest' hpc
    cases hpc
    exact (List.forall_mem_cons.mp (hm.rest side _ heq)).2
  | push side o t rest heq _ _ =>
    rw [heq] at hq hc
    obtain ⟨ht, hrest⟩ := List.forall_mem_cons.mp (hm.rest side _ heq)
    refine ⟨InStep.concat hq ht, ?_, hc⟩
    intro side' rest' hpc
    cases hpc
    exact hrest
  | leave side rest heq =>
    rw [heq] at hq hc
    have hpair : InStep ρ s.qO s.qT := hq
    cases side with
    | left =>
      obtain ⟨hO, hT⟩ := hr.inferInv.busy .left rest heq
      obtain ⟨o, qO, hO⟩ := List.exists_cons_of_ne_nil hO
      obtain ⟨t, qT, hT⟩ := List.exists_cons_of_ne_nil hT
      obtain ⟨hmem, ht⟩ := h.front hr hpair hO hT
      show Tracked A ρ (enter A .right s)
      rw [enter_eq .right hO hT]
      refine ⟨hpair, ?_, hc⟩
      intro side' rest' hpc
      cases hpc
      rw [ht]
      exact h.rest_neighbourPairs .right hmem
    | right =>
      refine ⟨hpair.tail, fun _ _ hpc => Pc.noConfusion hpc, ?_⟩
      show s.correct = s.involve + 1 + 0
      exact hc

theorem Reachable.tracked (h : Renamed A ρ) {s : State} (hr : Reachable A s) : Tracked A ρ s :=
  hr.induct (tracked_start h) (fun _ _ hr hm hmove => hm.moves h hr hmove)

end Steps

end FreqAnalysis.Locality
