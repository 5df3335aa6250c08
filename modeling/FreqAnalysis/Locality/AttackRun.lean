import FreqAnalysis.Locality.AttackInv
import Mathlib.Data.List.Dedup
import Mathlib.Logic.Relation

/-!
# Runs of the attack

The worklist can only be refilled with ciphertext chunks that were not inferred
before, so it is refilled at most as often as there are such chunks, and the
main loop ends.
-/

namespace FreqAnalysis.Locality
open Base

def Run (A : Params) : State → State → Prop :=
  Relation.ReflTransGen (fun s s' => step A s = some s')

theorem Run.single {A : Params} {s s' : State} (h : step A s = some s') : Run A s s' :=
  Relation.ReflTransGen.single h

theorem Run.trans {A : Params} {s s' s'' : State} (h : Run A s s') (h' : Run A s' s'') :
    Run A s s'' := Relation.ReflTransGen.trans h h'

theorem Reachable.run {A : Params} {s s' : State} (h : Reachable A s) (hr : Run A s s') :
    Reachable A s' := by
  induction hr with
  | refl => exact h
  | tail _ hstep ih => exact ih.step hstep

/-- The fingerprints that can be pushed on `q_t`. -/
def candidates (A : Params) : List Fp :=
  (A.target.keys ++ recordKeys A.leftT ++ recordKeys A.rightT).dedup

theorem sources_candidates (A : Params) :
    Sources A (fun _ => True) (fun x => x ∈ candidates A) := by
  refine ⟨fun _ _ => trivial, fun _ _ _ => trivial, ?_, ?_⟩
  · intro x hx
    exact List.mem_dedup.mpr (List.mem_append_left _ (List.mem_append_left _ hx))
  · intro side x hx
    cases side with
    | left => exact List.mem_dedup.mpr (List.mem_append_left _ (List.mem_append_right _ hx))
    | right => exact List.mem_dedup.mpr (List.mem_append_right _ hx)

theorem InferInv.nodup {A : Params} {s : State} (h : InferInv A s) : s.pushed.Nodup :=
  (List.nodup_append.mp h.fresh).1

theorem Reachable.involve_le {A : Params} {s : State} (h : Reachable A s) :
    s.involve ≤ (candidates A).length := by
  have hle := h.inferInv.nodup.length_le_of_subset (h.drawn (sources_candidates A)).pushed
  exact h.inferInv.involve_le.trans hle

theorem run_infer (A : Params) (side : Side) (rest : List (Node × Node)) (s : State)
    (hpc : s.pc = .infer side rest) :
    ∃ s1, Run A s (leave A s1 side) ∧ s1.involve = s.involve := by
  induction rest generalizing s with
  | nil => exact ⟨s, Run.single (by simp only [step, hpc]), rfl⟩
  | cons p rest ih =>
    obtain ⟨o, t⟩ := p
    by_cases huniq : (s.uniq.get t.key).isSome = true
    · obtain ⟨s1, hrun, hinv⟩ := ih { s with pc := .infer side rest } rfl
      refine ⟨s1, Run.trans (Run.single ?_) hrun, hinv⟩
      simp only [step, hpc, huniq, if_true]
    · by_cases hlimit : s.qO.length + 1 > A.w
      · refine ⟨s, Run.single ?_, rfl⟩
        simp only [step, hpc, huniq, hlimit, if_true, if_false, Bool.false_eq_true]
      · obtain ⟨s1, hrun, hinv⟩ :=
          ih { s.pushPair o t (.neighbour s.pushed.length) with pc := .infer side rest } rfl
        refine ⟨s1, Run.trans (Run.single ?_) hrun, hinv⟩
        simp only [step, hpc, huniq, hlimit, if_false, Bool.false_eq_true]

theorem run_iteration (A : Params) (s : State) (hpc : s.pc = .head) :
    ∃ s', Run A s s' ∧ (s'.pc = .done ∨ s'.pc = .head ∧ s'.involve = s.involve + 1) := by
  cases hO : s.qO with
  | nil =>
    exact ⟨{ s with pc := .done }, Run.single (by simp only [step, hpc, hO]), Or.inl rfl⟩
  | cons o qO =>
    cases hT : s.qT with
    | nil =>
      exact ⟨{ s with pc := .done }, Run.single (by simp only [step, hpc, hO, hT]), Or.inl rfl⟩
    | cons t qT =>
      have hfirst : step A s = some (enter A .left (judge A s o.node.key t.node.key)) := by
        simp only [step, hpc, hO, hT]
      obtain ⟨restL, hL⟩ :=
        (enter_frame A .left (judge A s o.node.key t.node.key)).2.2.2.2.2
      obtain ⟨s1, hrun1, hinv1⟩ := run_infer A .left restL _ hL
      obtain ⟨restR, hR⟩ := (enter_frame A .right s1).2.2.2.2.2
      obtain ⟨s2, hrun2, hinv2⟩ := run_infer A .right restR _ hR
      refine ⟨s2.popBoth, ((Run.single hfirst).trans hrun1).trans hrun2, Or.inr ⟨rfl, ?_⟩⟩
      show s2.involve + 1 = s.involve + 1
      rw [hinv2]
      exact congrArg (· + 1) hinv1

theorem run_to_done (A : Params) (n : ℕ) (s : State) (hr : Reachable A s) (hpc : s.pc = .head)
    (hn : (candidates A).length ≤ s.involve + n) : ∃ f, Run A s f ∧ f.pc = .done := by
  induction n generalizing s with
  | zero =>
    obtain ⟨s', hrun, hdone | ⟨-, hinv⟩⟩ := run_iteration A s hpc
    · exact ⟨s', hrun, hdone⟩
    · have := (hr.run hrun).involve_le
      omega
  | succ n ih =>
    obtain ⟨s', hrun, hdone | ⟨hhead, hinv⟩⟩ := run_iteration A s hpc
    · exact ⟨s', hrun, hdone⟩
    · obtain ⟨f, hrest, hdone⟩ := ih s' (hr.run hrun) hhead (by omega)
      exact ⟨f, hrun.trans hrest, hdone⟩

theorem run_initO (A : Params) (tmp : List Node) (s : State) (hpc : s.pc = .initO tmp) :
    ∃ s', Run A s s' ∧ s'.pc = .initT (initial A.u A.target) ∧ s'.involve = s.involve := by
  induction tmp generalizing s with
  | nil =>
    exact ⟨{ s with pc := .initT (initial A.u A.target) }, Run.single (by simp only [step, hpc]),
      rfl, rfl⟩
  | cons n tmp ih =>
    obtain ⟨s', hrun, h1, h2⟩ := ih { s.pushO n with pc := .initO tmp } rfl
    exact ⟨s', Run.trans (Run.single (by simp only [step, hpc])) hrun, h1, h2⟩

theorem run_initT (A : Params) (tmp : List Node) (s : State) (hpc : s.pc = .initT tmp) :
    ∃ s' s1, Run A s s1 ∧ s1.pc = .initT [] ∧ step A s1 = some s' ∧ s'.pc = .head ∧
      s'.qO = s1.qO ∧ s'.qT = s1.qT ∧ s'.involve = s.involve := by
  induction tmp generalizing s with
  | nil =>
    exact ⟨{ s with pc := .head }, s, Relation.ReflTransGen.refl, hpc, by simp only [step, hpc],
      rfl, rfl, rfl, rfl⟩
  | cons n tmp ih =>
    obtain ⟨s', s1, hrun, h1⟩ := ih { s.pushT n with pc := .initT tmp } rfl
    exact ⟨s', s1, Run.trans (Run.single (by simp only [step, hpc])) hrun, h1⟩

structure AfterInit (A : Params) (s : State) : Prop where
  reachable : Reachable A s
  head : s.pc = .head
  first : s.involve = 0
  sizeO : s.qO.length = sizeO A
  sizeT : s.qT.length = sizeT A

theorem exists_afterInit (A : Params) : ∃ s, AfterInit A s := by
  have hfresh : (start A).involve = 0 := (statDb_inv A).fresh.1
  cases hl : A.leakage with
  | some r =>
    refine ⟨start A, .start, ?_, hfresh, ?_, ?_⟩
    · simp [start, hl]
    · simp [start, Locality.sizeO, hl]
    · simp [start, Locality.sizeT, hl]
  | none =>
    have hpc : (start A).pc = .initO (initial A.u A.origin) := by simp [start, hl]
    obtain ⟨s1, hrun1, hpc1, hinv1⟩ := run_initO A _ _ hpc
    obtain ⟨s3, s2, hrun2, hpc2, hstep, hhead, hO, hT, hinv3⟩ := run_initT A _ _ hpc1
    have hr2 : Reachable A s2 := (Reachable.start.run hrun1).run hrun2
    have hsize := hr2.sizes
    rw [hpc2] at hsize
    obtain ⟨-, hsO, hsT⟩ := hsize
    refine ⟨s3, hr2.step hstep, hhead, by rw [hinv3, hinv1, hfresh], by rw [hO, hsO], ?_⟩
    rw [hT, ← hsT, List.length_nil, Nat.add_zero]

/-- `uniq` is the set of fingerprints pushed on `q_t`, each of them once; from
the entry of the main loop on, the queues keep their difference and `q_o` its
bound; and the loop ends after no more iterations than there are candidates. -/
theorem inferred_set (A : Params) :
    (∀ s, Reachable A s → (∀ x, x ∈ s.uniq.keys ↔ x ∈ s.pushed) ∧ s.pushed.Nodup) ∧
    ∃ s0, Reachable A s0 ∧ s0.pc = .head ∧ s0.involve = 0 ∧
      (∀ s, Reachable A s → s.pc.PastInit →
        (s.qT.length : ℤ) - s.qO.length = s0.qT.length - s0.qO.length ∧
        s.qO.length ≤ max A.w s0.qO.length) ∧
      ∃ f, Run A s0 f ∧ f.pc = .done ∧ f.involve ≤ (candidates A).length := by
  refine ⟨fun s hs => ⟨hs.inferInv.uniq, hs.inferInv.nodup⟩, ?_⟩
  obtain ⟨s0, hinit⟩ := exists_afterInit A
  obtain ⟨f, hrun, hdone⟩ := run_to_done A _ s0 hinit.reachable hinit.head (Nat.le_add_left ..)
  refine ⟨s0, hinit.reachable, hinit.head, hinit.first, ?_, f, hrun, hdone,
    (hinit.reachable.run hrun).involve_le⟩
  intro s hs hpast
  obtain ⟨hdiff, hmax⟩ := (byPhase_iff hpast).mp hs.sizes
  rw [hinit.sizeO, hinit.sizeT]
  exact ⟨by omega, hmax⟩

end FreqAnalysis.Locality
