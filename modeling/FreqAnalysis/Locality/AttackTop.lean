import FreqAnalysis.Locality.AttackRank

/-!
# The k most frequent entries (db_insert, left_insert, right_insert)

`db_insert` passes the entries of a frequency database over the queue `pq`;
`left_insert` and `right_insert` pass the records of a neighbour value over `pq` or
`pc`, according to their argument `type`. All three push while the queue has fewer
than `k` entries and afterwards replace the top when the new count is larger. The
inference steps rest on what they share: from an empty queue each of them keeps `k`
most frequent entries, and a stack that the queue is drained onto gives them back
from the most frequent one down.
-/

namespace FreqAnalysis.Locality
open Base

structure Queues where
  pq : List Node
  pc : List Node

def Queues.pt (s : Queues) (type : ℕ) : List Node := if type = 0 then s.pq else s.pc

/-- The loops over the entries. -/
def insertNodes (k : ℕ) (pt ns : List Node) : List Node := ns.foldl (Heap.offer cmp k) pt

def dbInsert (db : SortedMap Fp (List Byte)) (k : ℕ) (s : Queues) : Queues :=
  { s with pq := insertNodes k s.pq (dbNodes db) }

def Params.table (A : Params) (side : Side) (type : ℕ) : SortedMap Fp (List Byte) :=
  -- `type == 0` stands for the plaintext chunks
  if type = 0 then A.sideO side else A.sideT side

def sideInsert (A : Params) (side : Side) (type : ℕ) (fp : Fp) (k : ℕ) (s : Queues) : Queues :=
  let ns := valueNodes ((A.table side type).get fp)
  if type = 0 then { s with pq := insertNodes k s.pq ns }
  else { s with pc := insertNodes k s.pc ns }

def leftInsert (A : Params) : ℕ → Fp → ℕ → Queues → Queues := sideInsert A .left

def rightInsert (A : Params) : ℕ → Fp → ℕ → Queues → Queues := sideInsert A .right

structure KeepsTop (k : ℕ) (es q : List Node) : Prop where
  size : q.length = min k es.length
  kept : ∃ out, (q ++ out).Perm es ∧ ∀ d ∈ out, ∀ a ∈ q, d.count ≤ a.count
  drained : (stackOf q).Perm q
  sorted : (stackOf q).Pairwise fun a b => b.count ≤ a.count

theorem keepsTop_insertNodes {k : ℕ} (hk : 0 < k) (ns : List Node) :
    KeepsTop k ns (insertNodes k [] ns) := by
  have hs : Heap.Selection cmp k ns (insertNodes k [] ns) :=
    Heap.select_selection cmp_strictWeak hk ns
  obtain ⟨out, hperm, hout⟩ := hs.kept
  have hle : ∀ d ∈ out, ∀ a ∈ insertNodes k [] ns, d.count ≤ a.count :=
    fun d hd a ha => (cmp_eq_false_iff d a).mp (hout d hd a ha)
  have hsorted := Heap.drain_sorted cmp_strictWeak _ hs.heap
  have hstack : (stackOf (insertNodes k [] ns)).Pairwise fun a b => b.count ≤ a.count :=
    List.pairwise_reverse.mpr (hsorted.imp fun {a b} h => (cmp_eq_false_iff a b).mp h)
  exact ⟨hs.size, ⟨out, hperm, hle⟩, (List.reverse_perm _).trans (Heap.drain_perm cmp _), hstack⟩

theorem pt_sideInsert (A : Params) (side : Side) (type : ℕ) (fp : Fp) (k : ℕ) (s : Queues) :
    (sideInsert A side type fp k s).pt type
      = insertNodes k (s.pt type) (valueNodes ((A.table side type).get fp)) := by
  unfold sideInsert Queues.pt
  by_cases h : type = 0
  · simp only [if_pos h]
  · simp only [if_neg h]

theorem keepsTop_sideInsert {k : ℕ} (hk : 0 < k) (A : Params) (side : Side) {type : ℕ} {fp : Fp}
    {s : Queues} {value : List Byte} (hempty : s.pt type = [])
    (hget : (A.table side type).get fp = some value) :
    KeepsTop k (valueNodes (some value)) ((sideInsert A side type fp k s).pt type) := by
  rw [pt_sideInsert, hempty, hget]
  exact keepsTop_insertNodes hk _

/-- Every value that is a concatenation of records is decoded completely, and each
of the three functions keeps `k` most frequent entries of what it reads. -/
theorem insert_keeps_top_k (k : ℕ) (hk : 0 < k) (A : Params) (s : Queues) :
    (∀ db, s.pq = [] → KeepsTop k (dbNodes db) (dbInsert db k s).pq) ∧
      ∀ (type : ℕ) (fp : Fp) (value : List Byte), s.pt type = [] → recordSize ∣ value.length →
        encodeRecords (records value) = value ∧
        ((A.table .left type).get fp = some value →
          KeepsTop k (valueNodes (some value)) ((leftInsert A type fp k s).pt type)) ∧
        ((A.table .right type).get fp = some value →
          KeepsTop k (valueNodes (some value)) ((rightInsert A type fp k s).pt type)) := by
  constructor
  · intro db hempty
    have hpq : (dbInsert db k s).pq = insertNodes k [] (dbNodes db) := by
      rw [dbInsert, hempty]
    rw [hpq]
    exact keepsTop_insertNodes hk (dbNodes db)
  · intro type fp value hempty hvalue
    exact ⟨encodeRecords_records hvalue, keepsTop_sideInsert hk A .left hempty,
      keepsTop_sideInsert hk A .right hempty⟩

/-- The tables of the trace b x a x a x: the second left neighbour of x is the more
frequent one. -/
def risingO : Tables :=
  countRuns [[.filled 2, .filled 9, .filled 1, .filled 9, .filled 1, .filled 9]]

def risingParams : Params :=
  { shiftedParams with origin := risingO.db, leftO := risingO.left, rightO := risingO.right }

theorem insert_keeps_top_one :
    ∃ value, (risingParams.leftO).get (.filled 9) = some value ∧
      (leftInsert risingParams 0 (.filled 9) 1 ⟨[], []⟩).pt 0 = [⟨.filled 1, 2⟩] ∧
      KeepsTop 1 [⟨.filled 2, 1⟩, ⟨.filled 1, 2⟩]
        ((leftInsert risingParams 0 (.filled 9) 1 ⟨[], []⟩).pt 0) := by
  have hget : ((risingParams.leftO).get (.filled 9)).isSome = true := by decide +kernel
  obtain ⟨value, hvalue⟩ := Option.isSome_iff_exists.mp hget
  have hnodes : valueNodes ((risingParams.leftO).get (.filled 9))
      = [⟨.filled 2, 1⟩, ⟨.filled 1, 2⟩] := by
    decide +kernel
  have hlen : ((risingParams.leftO).get (.filled 9)).map List.length = some 28 := by
    decide +kernel
  rw [hvalue] at hnodes hlen
  have hdvd : recordSize ∣ value.length := by
    rw [Option.some.inj hlen]
    decide
  have htop := ((insert_keeps_top_k 1 Nat.one_pos risingParams ⟨[], []⟩).2 0 (.filled 9) value rfl
    hdvd).2.1 hvalue
  rw [hnodes] at htop
  exact ⟨value, hvalue, by decide +kernel, htop⟩

end FreqAnalysis.Locality
