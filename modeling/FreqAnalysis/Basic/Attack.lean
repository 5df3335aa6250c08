import FreqAnalysis.Base.Lists
import FreqAnalysis.Base.Ranking
import FreqAnalysis.Locality.Attack
import Mathlib.Data.Finset.Card

/-!
# The basic attack (basic_attack.cc)

`ReadDbs` passes a frequency database over a queue of at most `Max_lenth` entries,
the largest count on top; `Fre_Analysis` takes one entry after the other from the
queue of the auxiliary database and from that of the target database and counts the
pairs with equal fingerprints. While the databases fit into the queues, this is
classical frequency analysis, rank against rank.

Once a queue is full, `ReadDbs` compares a new entry with the top. That is the most
frequent entry kept, not the least frequent one, so what is given up for a more
frequent chunk is the most frequent chunk so far.
-/

namespace FreqAnalysis.Basic
open Base

structure Node where
  hashName : Fp
  count : ℕ
  deriving DecidableEq

/-- `operator<`. -/
def less (a b : Node) : Bool := a.count < b.count

theorem less_eq_false_iff (a b : Node) : less a b = false ↔ b.count ≤ a.count := by
  simp only [less, decide_eq_false_iff_not]
  omega

theorem less_strictWeak : Heap.StrictWeak less := by
  constructor
  · intro a b h
    simp only [less, decide_eq_true_eq] at h
    exact (less_eq_false_iff b a).mpr (by omega)
  · intro a b c hab hbc
    have h1 := (less_eq_false_iff a b).mp hab
    have h2 := (less_eq_false_iff b c).mp hbc
    exact (less_eq_false_iff a c).mpr (by omega)

/-! ### ReadDbs -/

/-- What stands after the comment `Inserting begin`. -/
def insertNode (maxLenth : ℕ) (que : List Node) (n : Node) : List Node :=
  if que.length < maxLenth then Heap.push less que n
  else
    match que with
    -- with `Max_lenth > 0` the top of an empty queue is not read
    | [] => que
    | top :: _ => if top.count < n.count then Heap.push less (Heap.pop less que) n else que

def readDbs (maxLenth : ℕ) (db : SortedMap Fp (List Byte)) (que : List Node) :
    Option (List Node) :=
  -- the value is looked up again under the key of the iterator, and the status asserted
  db.entries.foldlM (fun que it =>
    (db.get it.1).map fun value => insertNode maxLenth que ⟨it.1, Locality.counter value⟩) que

def dbNodes (db : SortedMap Fp (List Byte)) : List Node :=
  db.entries.map fun e => ⟨e.1, Locality.counter e.2⟩

theorem dbNodes_map_hashName (db : SortedMap Fp (List Byte)) :
    (dbNodes db).map Node.hashName = db.keys := by
  rw [dbNodes, List.map_map]
  rfl

theorem readDbs_eq (maxLenth : ℕ) (db : SortedMap Fp (List Byte)) (que : List Node) :
    readDbs maxLenth db que = some ((dbNodes db).foldl (insertNode maxLenth) que) := by
  have hall : ∀ es : List (Fp × List Byte), (∀ e ∈ es, db.get e.1 = some e.2) → ∀ que : List Node,
      es.foldlM (fun que it => (db.get it.1).map fun value =>
          insertNode maxLenth que ⟨it.1, Locality.counter value⟩) que
        = some ((es.map fun e => (⟨e.1, Locality.counter e.2⟩ : Node)).foldl
            (insertNode maxLenth) que) := by
    intro es
    induction es with
    | nil => intro _ que; rfl
    | cons e es ih =>
      intro hget que
      have he := hget e (List.mem_cons_self ..)
      rw [List.foldlM_cons, he]
      exact ih (fun e' he' => hget e' (List.mem_cons_of_mem e he')) _
  exact hall db.entries (fun e he => (db.get_eq_some_iff e.1 e.2).mpr he) que

theorem insertNode_isHeap (maxLenth : ℕ) {que : List Node} (h : Heap.IsHeap less que) (n : Node) :
    Heap.IsHeap less (insertNode maxLenth que n) := by
  unfold insertNode
  by_cases hroom : que.length < maxLenth
  · rw [if_pos hroom]
    exact Heap.push_isHeap less_strictWeak que n h
  · rw [if_neg hroom]
    cases que with
    | nil => exact h
    | cons top rest =>
      by_cases hlt : top.count < n.count
      · simp only [if_pos hlt]
        exact Heap.push_isHeap less_strictWeak _ n (Heap.pop_isHeap less_strictWeak _ h)
      · simp only [if_neg hlt]
        exact h

theorem foldl_insertNode_isHeap (maxLenth : ℕ) (ns : List Node) :
    Heap.IsHeap less (ns.foldl (insertNode maxLenth) []) := by
  induction ns using List.reverseRecOn with
  | nil => exact Heap.isHeap_nil
  | append_singleton ns n ih =>
    rw [List.foldl_append]
    exact insertNode_isHeap maxLenth ih n

theorem foldl_insertNode_room {maxLenth : ℕ} {ns : List Node} (h : ns.length ≤ maxLenth) :
    (ns.foldl (insertNode maxLenth) []).Perm ns :=
  Heap.foldl_room_perm less (fun _ _ hroom => if_pos hroom) ns [] (by simpa using h)

/-! ### Stat_Unique and Fre_Analysis -/

structure State where
  trainingQueue : List Node
  targetQueue : List Node
  unique : ℕ
  correct : ℕ
  ansq : List Node
  -- the tops that were compared; no code reads it
  compared : List (Node × Node)

def statUnique (s : State) : State := { s with unique := s.targetQueue.length }

def sameName (p : Node × Node) : Bool := memcmp p.1.hashName.val p.2.hashName.val = 0

def compareTops (s : State) : State :=
  match s.trainingQueue, s.targetQueue with
  | a :: _, b :: _ =>
    { s with
      trainingQueue := Heap.pop less s.trainingQueue
      targetQueue := Heap.pop less s.targetQueue
      correct := if sameName (a, b) then s.correct + 1 else s.correct
      ansq := if sameName (a, b) then s.ansq ++ [a] else s.ansq
      compared := s.compared ++ [(a, b)] }
  -- the bound of the loop keeps it from the top of an empty queue
  | _, _ => s

def freAnalysis (s : State) : State :=
  compareTops^[min s.trainingQueue.length s.targetQueue.length] { s with ansq := [] }

/-- `main`, up to the output. -/
def basicAttack (maxLenth : ℕ) (training target : SortedMap Fp (List Byte)) : Option State := do
  let trainingQueue ← readDbs maxLenth training []
  let targetQueue ← readDbs maxLenth target []
  some (freAnalysis (statUnique ⟨trainingQueue, targetQueue, 0, 0, [], []⟩))

theorem sameName_iff (p : Node × Node) : sameName p = true ↔ p.1.hashName = p.2.hashName := by
  have hlen : p.1.hashName.val.length = p.2.hashName.val.length := by
    rw [p.1.hashName.property, p.2.hashName.property]
  rw [sameName, decide_eq_true_eq, memcmp_eq_zero_iff _ _ hlen]
  exact Subtype.ext_iff.symm

structure Compared (s : State) (ps : List (Node × Node)) (s' : State) : Prop where
  unique : s'.unique = s.unique
  correct : s'.correct = s.correct + ps.countP sameName
  ansq : s'.ansq = s.ansq ++ (ps.filter sameName).map Prod.fst
  compared : s'.compared = s.compared ++ ps

theorem Compared.cons {s s1 s2 : State} {p : Node × Node} {ps : List (Node × Node)}
    (h1 : Compared s [p] s1) (h2 : Compared s1 ps s2) : Compared s (p :: ps) s2 := by
  have hcons : p :: ps = [p] ++ ps := rfl
  refine ⟨h2.unique.trans h1.unique, ?_, ?_, ?_⟩
  · rw [h2.correct, h1.correct, hcons, List.countP_append, Nat.add_assoc]
  · rw [h2.ansq, h1.ansq, hcons, List.filter_append, List.map_append, List.append_assoc]
  · rw [h2.compared, h1.compared, hcons, List.append_assoc]

theorem compareTops_compared {s : State} {a b : Node} {q q' : List Node}
    (ha : s.trainingQueue = a :: q) (hb : s.targetQueue = b :: q') :
    Compared s [(a, b)] (compareTops s) ∧
      (compareTops s).trainingQueue = Heap.pop less (a :: q) ∧
      (compareTops s).targetQueue = Heap.pop less (b :: q') := by
  unfold compareTops
  rw [ha, hb]
  refine ⟨⟨rfl, ?_, ?_, rfl⟩, rfl, rfl⟩
  · cases h : sameName (a, b) with
    | true => simp [h]
    | false => simp [h]
  · cases h : sameName (a, b) with
    | true => simp [h]
    | false => simp [h]

theorem iterate_compareTops (n : ℕ) (s : State)
    (h : n ≤ min s.trainingQueue.length s.targetQueue.length) :
    Compared s (((Heap.drain less s.trainingQueue).zip (Heap.drain less s.targetQueue)).take n)
      (compareTops^[n] s) := by
  induction n generalizing s with
  | zero => exact ⟨rfl, rfl, by simp, by simp⟩
  | succ n ih =>
    cases ha : s.trainingQueue with
    | nil =>
      rw [ha, List.length_nil] at h
      omega
    | cons a q =>
      cases hb : s.targetQueue with
      | nil =>
        rw [hb, List.length_nil] at h
        omega
      | cons b q' =>
        obtain ⟨hstep, hq, hq'⟩ := compareTops_compared ha hb
        rw [ha, hb, List.length_cons, List.length_cons] at h
        have hlen := Heap.pop_length less (a :: q)
        have hlen' := Heap.pop_length less (b :: q')
        rw [List.length_cons] at hlen hlen'
        have hrest := ih (compareTops s) (by rw [hq, hq']; omega)
        rw [hq, hq'] at hrest
        rw [Heap.drain_cons, Heap.drain_cons, List.zip_cons_cons, List.take_succ_cons,
          Function.iterate_succ_apply]
        exact hstep.cons hrest

theorem freAnalysis_compared (s : State) :
    Compared { s with ansq := [] }
      ((Heap.drain less s.trainingQueue).zip (Heap.drain less s.targetQueue)) (freAnalysis s) := by
  have hloop := iterate_compareTops (min s.trainingQueue.length s.targetQueue.length)
    { s with ansq := [] } le_rfl
  rwa [List.take_of_length_le] at hloop
  rw [List.length_zip, (Heap.drain_perm less _).length_eq, (Heap.drain_perm less _).length_eq]

/-! ### Rank against rank -/

theorem drained_ranks {maxLenth : ℕ} {db : SortedMap Fp (List Byte)}
    (h : db.entries.length ≤ maxLenth) :
    ∃ que, readDbs maxLenth db [] = some que ∧ que.length = db.entries.length ∧
      Ranks Node.count (dbNodes db) (Heap.drain less que) := by
  have hlen : (dbNodes db).length = db.entries.length := List.length_map _
  have hperm := foldl_insertNode_room (hlen.trans_le h)
  have hheap := foldl_insertNode_isHeap maxLenth (dbNodes db)
  have hsorted := Heap.drain_sorted less_strictWeak _ hheap
  refine ⟨_, readDbs_eq maxLenth db [], hperm.length_eq.trans hlen, ?_, ?_⟩
  · exact (Heap.drain_perm less _).trans hperm
  · exact hsorted.imp fun {a b} hab => (less_eq_false_iff a b).mp hab

theorem nodup_hashName_of_ranks {db : SortedMap Fp (List Byte)} {r : List Node}
    (h : Ranks Node.count (dbNodes db) r) : (r.map Node.hashName).Nodup := by
  rw [(h.perm.map Node.hashName).nodup_iff, dbNodes_map_hashName]
  exact db.nodup_keys

theorem hashName_mem_of_ranks {db : SortedMap Fp (List Byte)} {r : List Node}
    (h : Ranks Node.count (dbNodes db) r) {n : Node} (hn : n ∈ r) : n.hashName ∈ db.keys := by
  rw [← dbNodes_map_hashName]
  exact List.mem_map.mpr ⟨n, h.perm.mem_iff.mp hn, rfl⟩

def inferred (ps : List (Node × Node)) : List Node := (ps.filter sameName).map Prod.fst

theorem nodup_inferred {r r' : List Node} (h : (r.map Node.hashName).Nodup) :
    ((inferred (r.zip r')).map Node.hashName).Nodup := by
  have hsub : (inferred (r.zip r')).Sublist r :=
    (List.filter_sublist.map Prod.fst).trans (map_fst_zip_sublist r r')
  exact (hsub.map Node.hashName).nodup h

theorem mem_inferred {r r' : List Node} {n : Node} (h : n ∈ inferred (r.zip r')) :
    n ∈ r ∧ ∃ m ∈ r', m.hashName = n.hashName := by
  obtain ⟨p, hp, rfl⟩ := List.mem_map.mp h
  obtain ⟨hzip, hsame⟩ := List.mem_filter.mp hp
  obtain ⟨hleft, hright⟩ := List.of_mem_zip hzip
  exact ⟨hleft, p.2, hright, ((sameName_iff p).mp hsame).symm⟩

theorem length_le_card_inter {training target : SortedMap Fp (List Byte)} {ns : List Node}
    (hnodup : (ns.map Node.hashName).Nodup)
    (hkeys : ∀ n ∈ ns, n.hashName ∈ training.keys ∧ n.hashName ∈ target.keys) :
    ns.length ≤ (training.keys.toFinset ∩ target.keys.toFinset).card := by
  rw [← List.length_map Node.hashName, ← List.toFinset_card_of_nodup hnodup]
  apply Finset.card_le_card
  intro x hx
  obtain ⟨n, hn, rfl⟩ := List.mem_map.mp (List.mem_toFinset.mp hx)
  rw [Finset.mem_inter, List.mem_toFinset, List.mem_toFinset]
  exact hkeys n hn

/-- With databases that fit into the queues, the attack compares two rankings position
by position. -/
theorem basic_attack_matches_ranks (maxLenth : ℕ) (training target : SortedMap Fp (List Byte))
    (hM : training.entries.length ≤ maxLenth) (hC : target.entries.length ≤ maxLenth) :
    ∃ s rM rC, basicAttack maxLenth training target = some s ∧
      s.unique = target.entries.length ∧
      Ranks Node.count (dbNodes training) rM ∧ Ranks Node.count (dbNodes target) rC ∧
      s.compared = rM.zip rC ∧
      (rM.map Node.hashName).Nodup ∧ (rC.map Node.hashName).Nodup ∧
      s.correct = s.compared.countP (fun p => p.1.hashName = p.2.hashName) ∧
      s.ansq.length = s.correct ∧ (s.ansq.map Node.hashName).Nodup ∧
      (∀ n ∈ s.ansq, n.hashName ∈ training.keys ∧ n.hashName ∈ target.keys) ∧
      s.correct ≤ (training.keys.toFinset ∩ target.keys.toFinset).card := by
  obtain ⟨qM, hreadM, -, hrM⟩ := drained_ranks hM
  obtain ⟨qC, hreadC, hlenC, hrC⟩ := drained_ranks hC
  have hs := freAnalysis_compared (statUnique ⟨qM, qC, 0, 0, [], []⟩)
  have hattack : basicAttack maxLenth training target
      = some (freAnalysis (statUnique ⟨qM, qC, 0, 0, [], []⟩)) := by
    rw [basicAttack, hreadM, hreadC]
    rfl
  obtain ⟨hunique, hcorrect, hansq, hcompared⟩ := hs
  generalize freAnalysis (statUnique ⟨qM, qC, 0, 0, [], []⟩) = s at *
  simp only [statUnique, Nat.zero_add, List.nil_append] at hunique hcorrect hansq hcompared
  have hsame : sameName = fun p => decide (p.1.hashName = p.2.hashName) := by
    funext p
    rw [Bool.eq_iff_iff, sameName_iff, decide_eq_true_eq]
  have hlen : s.ansq.length = s.correct := by
    rw [hansq, hcorrect, List.length_map, List.countP_eq_length_filter]
  have hnodup : (s.ansq.map Node.hashName).Nodup := by
    rw [hansq]
    exact nodup_inferred (nodup_hashName_of_ranks hrM)
  have hkeys : ∀ n ∈ s.ansq, n.hashName ∈ training.keys ∧ n.hashName ∈ target.keys := by
    intro n hn
    rw [hansq] at hn
    obtain ⟨hleft, m, hm, hname⟩ := mem_inferred hn
    exact ⟨hashName_mem_of_ranks hrM hleft, hname ▸ hashName_mem_of_ranks hrC hm⟩
  exact ⟨s, _, _, hattack, hunique.trans hlenC, hrM, hrC, hcompared, nodup_hashName_of_ranks hrM,
    nodup_hashName_of_ranks hrC, by rw [hcorrect, hcompared, hsame], hlen, hnodup, hkeys,
    hlen ▸ length_le_card_inter hnodup hkeys⟩

/-- The counts 5 and 1 of two chunks, and 7 and 2 of the first and a third one. -/
def twoTraining : SortedMap Fp (List Byte) :=
  SortedMap.empty.putAll [(.filled 1, leBytes 8 5), (.filled 2, leBytes 8 1)]

def twoTarget : SortedMap Fp (List Byte) :=
  SortedMap.empty.putAll [(.filled 1, leBytes 8 7), (.filled 3, leBytes 8 2)]

theorem basic_attack_matches_ranks_two :
    ∃ s, basicAttack 2 twoTraining twoTarget = some s ∧ s.unique = 2 ∧ s.correct ≤ 1 := by
  obtain ⟨s, -, -, hrun, hunique, -, -, -, -, -, -, -, -, -, hcorrect⟩ :=
    basic_attack_matches_ranks 2 twoTraining twoTarget (by decide +kernel) (by decide +kernel)
  have hunique2 : s.unique = 2 := hunique.trans (by decide +kernel)
  exact ⟨s, hrun, hunique2, hcorrect.trans (by decide +kernel)⟩

end FreqAnalysis.Basic
