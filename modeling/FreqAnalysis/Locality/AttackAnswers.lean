import FreqAnalysis.Locality.AttackRun
import FreqAnalysis.Locality.Count
import Mathlib.Data.Finset.Card

/-!
# The inferred chunks that are printed (ansq, ansq1 and ansq2)

At every correct pair `main_loop` appends the two fronts to the vectors `ansq1` and
`ansq2` (`locality_attack.cc` keeps the plaintext chunk only, in `ansq`), and `main`
prints them from the back. The vectors are followed along a run of the machine.
-/

namespace FreqAnalysis.Locality
open Base

/-- The fronts were judged in this iteration and are not yet popped. -/
def judged : Pc → ℕ
  | .infer _ _ => 1
  | .initO _ => 0
  | .initT _ => 0
  | .head => 0
  | .done => 0

/-- What the iteration that starts in `s` appends. -/
def answer (A : Params) (s : State) : List (Node × Node) :=
  match s.pc, s.qO, s.qT with
  | .head, o :: _, t :: _ =>
    if A.plain t.node.key = some o.node.key then [(o.node, t.node)] else []
  | _, _, _ => []

inductive Answers (A : Params) : State → List (Node × Node) → Prop
  | start : Answers A (start A) []
  | step {s s' : State} {l : List (Node × Node)} :
      Answers A s l → step A s = some s' → Answers A s' (l ++ answer A s)

/-- The lines of the final loop of `main`, last answer first. -/
def printed (l : List (Node × Node)) : List Fp := l.reverse.map fun p => p.1.key

section Answers

variable {A : Params} {s : State} {l : List (Node × Node)}

theorem answer_of_ne_head (h : s.pc ≠ .head) : answer A s = [] := by
  unfold answer
  split
  · rename_i hpc _ _
    exact absurd hpc h
  · rfl

theorem answer_of_empty (h : s.qO = [] ∨ s.qT = []) : answer A s = [] := by
  unfold answer
  split
  · rename_i hO hT
    rcases h with h | h
    · rw [h] at hO
      cases hO
    · rw [h] at hT
      cases hT
  · rfl

theorem answer_of_fronts {o t : Entry} {qO qT : List Entry} (hpc : s.pc = .head)
    (hO : s.qO = o :: qO) (hT : s.qT = t :: qT) :
    answer A s = if A.plain t.node.key = some o.node.key then [(o.node, t.node)] else [] := by
  simp only [answer, hpc, hO, hT]

theorem Answers.reachable (h : Answers A s l) : Reachable A s := by
  induction h with
  | start => exact .start
  | step _ hstep ih => exact ih.step hstep

theorem Reachable.answers (h : Reachable A s) : ∃ l, Answers A s l := by
  induction h with
  | start => exact ⟨[], .start⟩
  | step _ hstep ih =>
    obtain ⟨l, hl⟩ := ih
    exact ⟨_, hl.step hstep⟩

theorem take_concat_sublist {l : List Fp} (n : ℕ) (a : Fp) :
    (l.take n).Sublist ((l ++ [a]).take n) := by
  rw [List.take_append]
  exact List.sublist_append_left _ _

structure AnswerInv (A : Params) (s : State) (l : List (Node × Node)) : Prop where
  counted : l.length = s.correct
  popped : (l.map fun p => p.2.key).Sublist (s.pushed.take (s.involve + judged s.pc))
  genuine : ∀ p ∈ l, A.plain p.2.key = some p.1.key
  known : ∀ p ∈ l, p.1.key ∈ A.origin.keys

theorem AnswerInv.frame {s' : State} (h : AnswerInv A s l) (hcorrect : s'.correct = s.correct)
    (hpushed : (s.pushed.take (s.involve + judged s.pc)).Sublist
      (s'.pushed.take (s'.involve + judged s'.pc))) : AnswerInv A s' (l ++ []) := by
  rw [List.append_nil]
  exact ⟨h.counted.trans hcorrect.symm, h.popped.trans hpushed, h.genuine, h.known⟩

theorem AnswerInv.judge (hi : InferInv A s) (h : AnswerInv A s l) {o t : Entry}
    {qO qT : List Entry} (hpc : s.pc = .head) (hO : s.qO = o :: qO) (hT : s.qT = t :: qT)
    (hkey : o.node.key ∈ A.origin.keys) (rest : List (Node × Node)) :
    AnswerInv A { Locality.judge A s o.node.key t.node.key with pc := .infer .left rest }
      (l ++ answer A s) := by
  have hq := hi.queue
  rw [hT, List.map_cons] at hq
  have htake : s.pushed.take (s.involve + 1) = s.pushed.take s.involve ++ [t.node.key] := by
    rw [List.take_add, hq]
    rfl
  have hpopped := h.popped
  rw [hpc] at hpopped
  rw [answer_of_fronts hpc hO hT]
  by_cases hplain : A.plain t.node.key = some o.node.key
  · rw [if_pos hplain]
    refine ⟨?_, ?_, forall_mem_concat h.genuine hplain, forall_mem_concat h.known hkey⟩
    · simp only [Locality.judge, hplain, if_true, List.length_append, List.length_singleton,
        h.counted]
    · show ((l ++ [(o.node, t.node)]).map _).Sublist (s.pushed.take (s.involve + 1))
      rw [htake, List.map_append]
      exact hpopped.append_right _
  · rw [if_neg hplain, List.append_nil]
    refine ⟨?_, ?_, h.genuine, h.known⟩
    · simp only [Locality.judge, hplain, if_false, h.counted]
    · show (l.map _).Sublist (s.pushed.take (s.involve + 1))
      rw [htake]
      exact hpopped.trans (List.sublist_append_left _ _)

theorem AnswerInv.step (hr : Reachable A s) {s' : State}
    (hM : ∀ side, ∀ x ∈ recordKeys (A.sideO side), x ∈ A.origin.keys) (h : AnswerInv A s l)
    (hstep : step A s = some s') : AnswerInv A s' (l ++ answer A s) := by
  have hi := hr.inferInv
  have hidle : s.pc ≠ .head → answer A s = [] := answer_of_ne_head
  cases step_moves hstep with
  | enterT heq | pushO n tmp heq | enterLoop heq | skip side o t rest heq _ =>
    rw [hidle (by rw [heq]; exact Pc.noConfusion)]
    refine h.frame rfl ?_
    rw [heq]
    exact List.Sublist.refl _
  | pushT n tmp heq | push side o t rest heq _ _ =>
    rw [hidle (by rw [heq]; exact Pc.noConfusion)]
    refine h.frame rfl ?_
    rw [heq]
    exact take_concat_sublist _ _
  | stop heq hempty =>
    rw [answer_of_empty hempty]
    refine h.frame rfl ?_
    rw [heq]
    exact List.Sublist.refl _
  | judge o t qO qT heq hO hT =>
    have hsrc : Sources A (fun x => x ∈ A.origin.keys) (fun _ => True) :=
      ⟨fun _ hx => hx, hM, fun _ _ => trivial, fun _ _ _ => trivial⟩
    exact h.judge hi heq hO hT ((hr.drawn hsrc).qO o (hO ▸ List.mem_cons_self ..)) _
  | leave side rest heq =>
    rw [hidle (by rw [heq]; exact Pc.noConfusion)]
    refine h.frame (by cases side <;> rfl) ?_
    cases side with
    | left =>
      obtain ⟨rest', hpc⟩ := (enter_frame A .right s).2.2.2.2.2
      show (s.pushed.take _).Sublist (s.pushed.take (s.involve + judged (enter A .right s).pc))
      rw [heq, hpc]
      exact List.Sublist.refl _
    | right =>
      rw [heq]
      exact List.Sublist.refl _

theorem Answers.inv (hM : ∀ side, ∀ x ∈ recordKeys (A.sideO side), x ∈ A.origin.keys)
    (h : Answers A s l) : AnswerInv A s l := by
  induction h with
  | start => exact ⟨(statDb_inv A).fresh.2.symm, List.nil_sublist _,
      fun p hp => absurd hp List.not_mem_nil, fun p hp => absurd hp List.not_mem_nil⟩
  | step hprev hstep ih => exact ih.step hprev.reachable hM hstep

end Answers

/-- The ciphertext chunks whose plaintext the auxiliary database has. -/
def overlap (A : Params) : Finset Fp :=
  A.target.keys.toFinset.filter fun t => ∃ p ∈ A.origin.keys, A.plain t = some p

/-- One answer for every correct inference, no ciphertext chunk twice, every answer
genuine; so the attack never infers more than the overlap of the two streams. -/
theorem answers_genuine (A : Params)
    (hM : ∀ side, ∀ x ∈ recordKeys (A.sideO side), x ∈ A.origin.keys)
    (hC : ∀ side, ∀ x ∈ recordKeys (A.sideT side), x ∈ A.target.keys)
    (s : State) (h : Reachable A s) :
    ∃ l, Answers A s l ∧ (printed l).length = s.correct ∧ (l.map fun p => p.2.key).Nodup ∧
      (∀ p ∈ l, p.1.key ∈ A.origin.keys ∧ p.2.key ∈ A.target.keys ∧
        A.plain p.2.key = some p.1.key) ∧
      s.correct ≤ (overlap A).card := by
  obtain ⟨l, hl⟩ := h.answers
  have hinv := hl.inv hM
  have hsrc : Sources A (fun _ => True) (fun t => t ∈ A.target.keys) :=
    ⟨fun _ _ => trivial, fun _ _ _ => trivial, fun _ ht => ht, hC⟩
  have hpushed : (l.map fun p => p.2.key).Sublist s.pushed :=
    hinv.popped.trans (List.take_sublist _ _)
  have hnodup := hpushed.nodup h.inferInv.nodup
  have htarget : ∀ p ∈ l, p.2.key ∈ A.target.keys := fun p hp =>
    (h.drawn hsrc).pushed _ (hpushed.subset (List.mem_map.mpr ⟨p, hp, rfl⟩))
  refine ⟨l, hl, ?_, hnodup, fun p hp => ⟨hinv.known p hp, htarget p hp, hinv.genuine p hp⟩, ?_⟩
  · rw [printed, List.length_map, List.length_reverse, hinv.counted]
  · rw [← hinv.counted, ← List.length_map fun p : Node × Node => p.2.key,
      ← List.toFinset_card_of_nodup hnodup]
    apply Finset.card_le_card
    intro t ht
    obtain ⟨p, hp, rfl⟩ := List.mem_map.mp (List.mem_toFinset.mp ht)
    rw [overlap, Finset.mem_filter, List.mem_toFinset]
    exact ⟨htarget p hp, p.1.key, hinv.known p hp, hinv.genuine p hp⟩

/-- The tables of the traces a b a and b a c, with every ciphertext chunk leaked. -/
def leakedO : Tables := countRuns [[.filled 1, .filled 2, .filled 1]]

def leakedT : Tables := countRuns [[.filled 2, .filled 1, .filled 3]]

def leakedParams : Params where
  origin := leakedO.db
  leftO := leakedO.left
  rightO := leakedO.right
  target := leakedT.db
  leftT := leakedT.left
  rightT := leakedT.right
  u := 1
  v := 1
  w := 4
  u_pos := by decide
  v_pos := by decide
  leakage := some fun _ => true
  truth := .own

theorem answers_genuine_leaked : ∃ s l, Reachable leakedParams s ∧ s.pc = .done ∧
    Answers leakedParams s l ∧ (printed l).length = s.correct ∧ s.correct ≤ 2 := by
  obtain ⟨s0, hinit⟩ := exists_afterInit leakedParams
  obtain ⟨s, hrun, hdone⟩ :=
    run_to_done leakedParams _ s0 hinit.reachable hinit.head (Nat.le_add_left ..)
  have hr := hinit.reachable.run hrun
  have hcard : (overlap leakedParams).card = 2 := by decide +kernel
  obtain ⟨l, hl, hlen, -, -, hle⟩ := answers_genuine leakedParams
    (by intro side; cases side <;> decide +kernel) (by intro side; cases side <;> decide +kernel) s hr
  exact ⟨s, l, hr, hdone, hl, hlen, hcard ▸ hle⟩

end FreqAnalysis.Locality
