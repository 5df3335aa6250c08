import FreqAnalysis.Locality.AttackRun
import FreqAnalysis.Locality.Count

/-!
# The two queues as one set of pairs

After the initialisation entries are pushed on the two queues together and
popped together, so the fronts belong together as long as they did at the entry
of the main loop. `stat_db` pushes pairs, but the initial frequency analysis
fills each queue from its own database: the fronts then belong together exactly
when both analyses return equally many chunks.
-/

namespace FreqAnalysis.Locality
open Base

/-! ### Ranks -/

/-- `n` is an `i`-th most frequent entry, for some order of equal counts. -/
def HasRank (db : SortedMap Fp (List Byte)) (i : ℕ) (n : Node) : Prop :=
  ∃ l : List Node, l.Perm (dbNodes db) ∧ l.Pairwise (fun a b => b.count ≤ a.count) ∧
    l[i]? = some n

theorem hasRank_initial {k : ℕ} (hk : 0 < k) (db : SortedMap Fp (List Byte)) (i : ℕ) (n : Node)
    (h : (initial k db)[i]? = some n) : i < k ∧ HasRank db i n := by
  obtain ⟨rest, hranks⟩ := topRanked_ranks hk (dbNodes db)
  have hi : i < (initial k db).length := by
    by_contra hge
    rw [List.getElem?_eq_none (by omega)] at h
    cases h
  have hlen := initial_length hk db
  refine ⟨by omega, initial k db ++ rest, hranks.perm, hranks.desc, ?_⟩
  rw [List.getElem?_append_left hi]
  exact h

theorem drop_eq_cons {α : Type} {l tmp : List α} {a : α} {k : ℕ} (h : a :: tmp = l.drop k) :
    l[k]? = some a ∧ tmp = l.drop (k + 1) := by
  constructor
  · rw [← List.head?_drop, ← h]
    rfl
  · rw [← List.tail_drop, ← h]
    rfl

/-! ### Origins on the queues -/

def Ranked (k : ℕ) (db : SortedMap Fp (List Byte)) (q : List Entry) : Prop :=
  ∀ e ∈ q, ∀ i, e.origin = .rank i → i < k ∧ HasRank db i e.node

def Filling (k : ℕ) (db : SortedMap Fp (List Byte)) (q : List Entry) (tmp : List Node) : Prop :=
  Ranked k db q ∧ q.map Entry.origin = (List.range q.length).map .rank ∧
    tmp = (initial k db).drop q.length

theorem filling_nil (k : ℕ) (db : SortedMap Fp (List Byte)) : Filling k db [] (initial k db) :=
  ⟨fun _ he => absurd he List.not_mem_nil, rfl, rfl⟩

theorem Filling.push {k : ℕ} (hk : 0 < k) {db : SortedMap Fp (List Byte)} {q : List Entry}
    {n : Node} {tmp : List Node} (h : Filling k db q (n :: tmp)) :
    Filling k db (q ++ [⟨n, .rank q.length⟩]) tmp := by
  obtain ⟨hranked, horigins, hstack⟩ := h
  obtain ⟨hget, htmp⟩ := drop_eq_cons hstack
  have hlen : (q ++ [(⟨n, .rank q.length⟩ : Entry)]).length = q.length + 1 := by simp
  refine ⟨forall_mem_concat hranked ?_, ?_, ?_⟩
  · intro i hi
    cases hi
    exact hasRank_initial hk db _ n hget
  · rw [hlen, List.range_succ, List.map_append, List.map_append, horigins]
    rfl
  · rw [hlen]
    exact htmp

theorem Ranked.pushNeighbour {k : ℕ} {db : SortedMap Fp (List Byte)} {q : List Entry}
    (h : Ranked k db q) (n : Node) (i : ℕ) : Ranked k db (q ++ [⟨n, .neighbour i⟩]) :=
  forall_mem_concat h (fun _ hi => Origin.noConfusion hi)

theorem Ranked.tail {k : ℕ} {db : SortedMap Fp (List Byte)} {q : List Entry}
    (h : Ranked k db q) : Ranked k db q.tail := fun e he => h e (List.mem_of_mem_tail he)

/-- After the initialisation: the origins agree if the queues started with as
many entries, and a queue that started empty stops the loop at once. -/
structure Matched (A : Params) (qO qT : List Entry) : Prop where
  rankedO : Ranked A.u A.origin qO
  rankedT : Ranked A.u A.target qT
  origins : sizeO A = sizeT A → qO.map Entry.origin = qT.map Entry.origin
  stuck : A.leakage = none → sizeO A = 0 ∨ sizeT A = 0 → qO = [] ∨ qT = []

theorem matched_statDb {A : Params} (hl : A.leakage ≠ none) :
    Matched A (statDb A).qO (statDb A).qT := by
  have hs := statDb_inv A
  refine ⟨fun e he i heq => absurd heq (hs.unranked e he i), ?_, fun _ => hs.paired,
    fun hnone => absurd hnone hl⟩
  intro e he i heq
  have hmem : e.origin ∈ (statDb A).qO.map Entry.origin := by
    rw [hs.paired]
    exact List.mem_map.mpr ⟨e, he, rfl⟩
  obtain ⟨e', he', horigin⟩ := List.mem_map.mp hmem
  exact absurd (horigin.trans heq) (hs.unranked e' he' i)

theorem matched_of_filled {A : Params} {qO qT : List Entry} (hsize : FillT A qO qT [])
    (hO : Filling A.u A.origin qO []) (hT : Filling A.u A.target qT []) : Matched A qO qT := by
  obtain ⟨-, hlO, hlT⟩ := hsize
  rw [List.length_nil] at hlT
  refine ⟨hO.1, hT.1, ?_, ?_⟩
  · intro heq
    have hlen : qO.length = qT.length := by omega
    rw [hO.2.1, hT.2.1, hlen]
  · rintro - (h0 | h0)
    · exact Or.inl (List.eq_nil_of_length_eq_zero (by omega))
    · exact Or.inr (List.eq_nil_of_length_eq_zero (by omega))

theorem Matched.push {A : Params} {qO qT : List Entry} (h : Matched A qO qT)
    (hbusy : qO ≠ [] ∧ qT ≠ []) (o t : Node) (n : ℕ) :
    Matched A (qO ++ [⟨o, .neighbour n⟩]) (qT ++ [⟨t, .neighbour n⟩]) := by
  refine ⟨h.rankedO.pushNeighbour o n, h.rankedT.pushNeighbour t n, ?_, ?_⟩
  · intro heq
    rw [List.map_append, List.map_append, h.origins heq]
    rfl
  · intro hl hzero
    -- the loop never runs then
    rcases h.stuck hl hzero with hnil | hnil
    · exact absurd hnil hbusy.1
    · exact absurd hnil hbusy.2

theorem Matched.pop {A : Params} {qO qT : List Entry} (h : Matched A qO qT) :
    Matched A qO.tail qT.tail := by
  refine ⟨h.rankedO.tail, h.rankedT.tail, ?_, ?_⟩
  · intro heq
    rw [List.map_tail, List.map_tail, h.origins heq]
  · intro hl hzero
    rcases h.stuck hl hzero with hnil | hnil
    · exact Or.inl (by rw [hnil, List.tail_nil])
    · exact Or.inr (by rw [hnil, List.tail_nil])

theorem Reachable.matched {A : Params} {s : State} (h : Reachable A s) (hp : s.pc.PastInit) :
    Matched A s.qO s.qT := by
  refine (byPhase_iff hp).mp (h.queues
    (I := fun qO qT tmp => FillO A qO qT tmp ∧ Filling A.u A.origin qO tmp)
    (J := fun qO qT tmp => FillT A qO qT tmp ∧ Filling A.u A.origin qO [] ∧
      Filling A.u A.target qT tmp)
    (K := Matched A) ?_ (fun hl => matched_statDb hl) ?_ ?_ ?_ ?_ ?_ ?_)
  · intro hl
    exact ⟨fillO_start hl, filling_nil A.u A.origin⟩
  · rintro qO qT ⟨hsize, hO⟩
    refine ⟨hsize.enterT, hO, ?_⟩
    rw [hsize.2.2]
    exact filling_nil A.u A.target
  · rintro qO qT n tmp ⟨hsize, hO⟩
    exact ⟨hsize.push _, hO.push A.u_pos⟩
  · rintro qO qT ⟨hsize, hO, hT⟩
    exact matched_of_filled hsize hO hT
  · rintro qO qT n tmp ⟨hsize, hO, hT⟩
    exact ⟨hsize.push _, hO, hT.push A.u_pos⟩
  · intro qO qT o t n hbusy _ hm
    exact hm.push hbusy o t n
  · intro qO qT _ hm
    exact hm.pop

/-! ### Pairs at the front -/

/-- Two entries pushed by one leaked chunk or by one neighbour step, or with
one rank in the initial analysis of both databases. -/
def FormedTogether (A : Params) (o t : Entry) : Prop :=
  o.origin = t.origin ∧ ∀ i, o.origin = .rank i →
    i < A.u ∧ HasRank A.origin i o.node ∧ HasRank A.target i t.node

def Paired (A : Params) (s : State) : Prop :=
  s.qO.length = s.qT.length ∧
    ∀ o t, s.qO.head? = some o → s.qT.head? = some t → FormedTogether A o t

theorem paired_of_origins {A : Params} {s : State} (hm : Matched A s.qO s.qT)
    (h : s.qO.map Entry.origin = s.qT.map Entry.origin) : Paired A s := by
  refine ⟨by simpa using congrArg List.length h, ?_⟩
  intro o t ho ht
  have horigin : o.origin = t.origin := by
    have hhead := congrArg List.head? h
    rw [List.head?_map, List.head?_map, ho, ht] at hhead
    exact Option.some.inj hhead
  refine ⟨horigin, ?_⟩
  intro i hi
  obtain ⟨hlt, hO⟩ := hm.rankedO o (List.mem_of_mem_head? ho) i hi
  exact ⟨hlt, hO, (hm.rankedT t (List.mem_of_mem_head? ht) i (horigin ▸ hi)).2⟩

/-- The fronts belong together at the start of every iteration exactly when
chunks are leaked, or one database is empty, or the initial analyses of both
return equally many chunks. -/
theorem queues_paired_iff (A : Params) :
    (∀ s, Reachable A s → s.pc = .head → s.qO ≠ [] → s.qT ≠ [] → Paired A s) ↔
      A.leakage ≠ none ∨ A.origin.entries = [] ∨ A.target.entries = [] ∨
        min A.u A.origin.entries.length = min A.u A.target.entries.length := by
  have hu := A.u_pos
  constructor
  · intro hall
    by_contra hcond
    obtain ⟨hl, hO, hT, hne⟩ : A.leakage = none ∧ A.origin.entries ≠ [] ∧
        A.target.entries ≠ [] ∧
        min A.u A.origin.entries.length ≠ min A.u A.target.entries.length := by
      simpa only [not_or, not_not] using hcond
    have hposO := List.length_pos_iff.mpr hO
    have hposT := List.length_pos_iff.mpr hT
    -- the state in which the main loop is entered
    obtain ⟨s0, hinit⟩ := exists_afterInit A
    have hsO := hinit.sizeO
    have hsT := hinit.sizeT
    rw [sizeO_of_unleaked hl] at hsO
    rw [sizeT_of_unleaked hl] at hsT
    have hpaired := hall s0 hinit.reachable hinit.head
      (List.length_pos_iff.mp (by omega)) (List.length_pos_iff.mp (by omega))
    have := hpaired.1
    omega
  · intro hcond s hs hpc hO hT
    have hm := hs.matched (by rw [hpc]; trivial)
    refine paired_of_origins hm (hm.origins ?_)
    by_cases hl : A.leakage = none
    · have hso := sizeO_of_unleaked hl
      have hst := sizeT_of_unleaked hl
      have hnonempty : ¬ (sizeO A = 0 ∨ sizeT A = 0) := by
        intro hzero
        rcases hm.stuck hl hzero with hnil | hnil
        · exact hO hnil
        · exact hT hnil
      rcases hcond with hleak | hnil | hnil | heq
      · exact absurd hl hleak
      · rw [hnil, List.length_nil] at hso
        omega
      · rw [hnil, List.length_nil] at hst
        omega
      · rw [hso, hst, heq]
    · exact sizes_of_leaked hl

/-! ### A run that pairs the wrong chunks -/

/-- The tables of the traces a a and c a a a b b. -/
def unevenO : Tables := countRuns [[.filled 1, .filled 1]]

def unevenT : Tables :=
  countRuns [[.filled 3, .filled 1, .filled 1, .filled 1, .filled 2, .filled 2]]

def unevenParams : Params where
  origin := unevenO.db
  leftO := unevenO.left
  rightO := unevenO.right
  target := unevenT.db
  leftT := unevenT.left
  rightT := unevenT.right
  u := 2
  v := 2
  w := 10
  u_pos := by decide
  v_pos := by decide
  leakage := none
  truth := .own

def stepN (A : Params) : ℕ → Option State
  | 0 => some (start A)
  | n + 1 => (stepN A n).bind (step A)

theorem stepN_reachable {A : Params} {n : ℕ} {s : State} (h : stepN A n = some s) :
    Reachable A s := by
  induction n generalizing s with
  | zero =>
    cases h
    exact .start
  | succ n ih =>
    obtain ⟨s1, h1, hstep⟩ := Option.bind_eq_some_iff.mp h
    exact (ih h1).step hstep

/-- At the start of the second iteration the plaintext neighbour of a meets the
second most frequent ciphertext chunk, and one entry of `q_t` has no partner. -/
theorem queues_unpaired : ∃ s, Reachable unevenParams s ∧ s.pc = .head ∧
    s.qO.map Entry.origin = [.neighbour 2] ∧
    s.qT.map Entry.origin = [.rank 1, .neighbour 2] ∧ ¬ Paired unevenParams s := by
  have hrun : (stepN unevenParams 10).map
      (fun s => (s.pc, s.qO.map Entry.origin, s.qT.map Entry.origin))
      = some (.head, [.neighbour 2], [.rank 1, .neighbour 2]) := by
    decide +kernel
  obtain ⟨s, hs, heq⟩ := Option.map_eq_some_iff.mp hrun
  obtain ⟨h1, h2, h3⟩ : s.pc = .head ∧ s.qO.map Entry.origin = [.neighbour 2] ∧
      s.qT.map Entry.origin = [.rank 1, .neighbour 2] := by
    simpa only [Prod.mk.injEq] using heq
  refine ⟨s, stepN_reachable hs, h1, h2, h3, ?_⟩
  intro hpaired
  have hO := congrArg List.length h2
  have hT := congrArg List.length h3
  have hlen := hpaired.1
  simp only [List.length_map, List.length_cons, List.length_nil] at hO hT
  omega

end FreqAnalysis.Locality
