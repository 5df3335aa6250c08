import FreqAnalysis.Base.Lists
import FreqAnalysis.Locality.AttackInv

/-!
# Leaked pairs of the defended attack (stat_db of locality_attack_e.cc)

`stat_db` looks the plaintext of every ciphertext chunk up in `relate` and, with the
leakage rate as probability, pushes the pair when the plaintext is in the auxiliary
database. The string `exs` that receives the plaintext is declared outside the loop and
the status of that lookup is not tested: for a ciphertext that `relate` lacks, the
plaintext of the last one it had is used once more.
-/

namespace FreqAnalysis.Locality
open Base

def pairsOf (s : State) : List (Fp × Fp) :=
  (s.qO.zip s.qT).map fun p => (p.1.node.key, p.2.node.key)

/-- The pairs on the queues after `stat_db`, plaintext first. -/
def leakedPairs (A : Params) : List (Fp × Fp) := pairsOf (statDb A)

-- how the `n`-th draw compares with the leakage rate
def Params.drawn (A : Params) (n : ℕ) : Bool := (A.leakage.getD fun _ => false) n

def leakPair (A : Params) (drawn : Bool) (t : Fp) (o : Option Fp) : Option (Fp × Fp) :=
  if drawn then o.bind fun o => (A.origin.get o).map fun _ => (o, t) else none

/-- What every chunk's own entries and its draw decide. -/
def ownPairs (A : Params) (db : SortedMap Fp Fp) : List (Fp × Fp) :=
  A.target.entries.zipIdx.filterMap fun e => leakPair A (A.drawn e.2) e.1.1 (db.get e.1.1)

/-- What `exs` holds after the chunks `pre`: the last plaintext found, or what it held
before. -/
def staleKey (db : SortedMap Fp Fp) (exs : Fp) (pre : List (Fp × List Byte)) : Fp :=
  ((pre.filterMap fun e => db.get e.1).getLast?).getD exs

theorem staleKey_cons (db : SortedMap Fp Fp) (exs : Fp) (e : Fp × List Byte)
    (pre : List (Fp × List Byte)) :
    staleKey db exs (e :: pre) = staleKey db ((db.get e.1).getD exs) pre := by
  unfold staleKey
  cases h : db.get e.1 with
  | none => simp only [List.filterMap_cons, h, Option.getD_none]
  | some o => simp only [List.filterMap_cons, h, List.getLast?_cons, Option.getD_some]

section Leak

variable {A : Params} {db : SortedMap Fp Fp}

-- the pairs that the loop pushes from the `n`-th chunk on, with `exs` in the buffer
variable (A db) in
def leaks : ℕ → Fp → List (Fp × List Byte) → List (Fp × Fp)
  | _, _, [] => []
  | n, exs, e :: es =>
    (leakPair A (A.drawn n) e.1 (some ((db.get e.1).getD exs))).toList
      ++ leaks (n + 1) ((db.get e.1).getD exs) es

theorem pairsOf_pushPair {s : State} (h : s.qO.length = s.qT.length) (o t : Node)
    (origin : Origin) : pairsOf (s.pushPair o t origin) = pairsOf s ++ [(o.key, t.key)] := by
  rw [pairsOf, State.pushPair, List.zip_append h, List.map_append]
  rfl

theorem statStep_relate {exs : Fp} (htruth : A.truth = .relate db exs) {s : State} (buf : Fp)
    (hlen : s.qO.length = s.qT.length) (e : Fp × List Byte) :
    ∃ s', statStep A (s, buf) e = (s', (db.get e.1).getD buf) ∧
      s'.qO.length = s'.qT.length ∧ s'.total = s.total + 1 ∧
      pairsOf s' = pairsOf s
        ++ (leakPair A (A.drawn s.total) e.1 (some ((db.get e.1).getD buf))).toList := by
  have hkey : plainKey A buf e.1 = (db.get e.1).getD buf := by
    rw [plainKey, htruth]
  unfold statStep leakPair
  simp only [hkey]
  cases hdraw : A.drawn s.total with
  | false =>
    rw [Params.drawn] at hdraw
    simp only [hdraw, Bool.false_eq_true, if_false]
    exact ⟨_, rfl, hlen, rfl, (List.append_nil _).symm⟩
  | true =>
    rw [Params.drawn] at hdraw
    simp only [hdraw, if_true]
    cases hget : A.origin.get ((db.get e.1).getD buf) with
    | none =>
      refine ⟨_, rfl, hlen, rfl, ?_⟩
      simp only [Option.bind_some, hget, Option.map_none, Option.toList_none, List.append_nil]
      rfl
    | some value =>
      refine ⟨_, rfl, ?_, rfl, ?_⟩
      · simp only [State.pushPair, List.length_append, hlen, List.length_singleton]
      · simp only [Option.bind_some, hget, Option.map_some, Option.toList_some]
        exact pairsOf_pushPair (s := { s with total := s.total + 1, common := s.common + 1 }) hlen
          ⟨(db.get e.1).getD buf, counter value⟩ ⟨e.1, counter e.2⟩ _

theorem foldl_statStep {exs : Fp} (htruth : A.truth = .relate db exs)
    (es : List (Fp × List Byte)) (s : State) (buf : Fp) (hlen : s.qO.length = s.qT.length) :
    pairsOf (es.foldl (statStep A) (s, buf)).1 = pairsOf s ++ leaks A db s.total buf es := by
  induction es generalizing s buf with
  | nil => exact (List.append_nil _).symm
  | cons e es ih =>
    obtain ⟨s', hstep, hlen', htotal, hpairs⟩ := statStep_relate htruth buf hlen e
    rw [List.foldl_cons, hstep, ih s' _ hlen', hpairs, htotal, leaks, List.append_assoc]

theorem leakedPairs_eq {exs : Fp} (htruth : A.truth = .relate db exs) :
    leakedPairs A = leaks A db 0 exs A.target.entries := by
  have hstart : exsStart A = exs := by
    rw [exsStart, htruth]
  rw [leakedPairs, statDb, hstart, foldl_statStep htruth _ _ _ rfl]
  rfl

/-! ### Genuine pairs -/

def Genuine (A : Params) (db : SortedMap Fp Fp) (p : Fp × Fp) : Prop :=
  db.get p.2 = some p.1 ∧ p.1 ∈ A.origin.keys

theorem mem_leakPair_iff (drawn : Bool) (t o : Fp) (p : Fp × Fp) :
    p ∈ (leakPair A drawn t (some o)).toList ↔
      drawn = true ∧ o ∈ A.origin.keys ∧ p = (o, t) := by
  unfold leakPair
  cases drawn with
  | false => simp
  | true =>
    rw [A.origin.mem_keys_iff o]
    cases hget : A.origin.get o with
    | none => simp [hget]
    | some value => simp [hget]

theorem leakPair_genuine_iff (drawn : Bool) (t exs : Fp) :
    (∀ p ∈ (leakPair A drawn t (some ((db.get t).getD exs))).toList, Genuine A db p) ↔
      (drawn = true → db.get t = none → exs ∉ A.origin.keys) := by
  simp only [mem_leakPair_iff, Genuine]
  cases hget : db.get t with
  | none =>
    rw [Option.getD_none]
    constructor
    · intro h hdrawn _ hmem
      obtain ⟨hbad, -⟩ := h (exs, t) ⟨hdrawn, hmem, rfl⟩
      rw [hget] at hbad
      cases hbad
    · rintro h p ⟨hdrawn, hmem, -⟩
      exact absurd hmem (h hdrawn rfl)
  | some o =>
    rw [Option.getD_some]
    constructor
    · intro _ _ hnone
      cases hnone
    · rintro - p ⟨-, hmem, rfl⟩
      exact ⟨hget, hmem⟩

theorem leakPair_own (drawn : Bool) (t exs : Fp)
    (h : drawn = true → db.get t = none → exs ∉ A.origin.keys) :
    leakPair A drawn t (some ((db.get t).getD exs)) = leakPair A drawn t (db.get t) := by
  cases hget : db.get t with
  | some o => rfl
  | none =>
    cases drawn with
    | false => rfl
    | true =>
      have hmiss := (A.origin.get_eq_none_iff exs).mpr (h rfl hget)
      simp only [leakPair, if_true, Option.getD_none, Option.bind_some, Option.bind_none, hmiss,
        Option.map_none]

/-- Every chunk of the target database that is drawn and missing in `relate` finds a
plaintext in `exs` that the auxiliary database lacks. -/
def NoStaleHit (A : Params) (db : SortedMap Fp Fp) (exs : Fp) : Prop :=
  ∀ pre e post, A.target.entries = pre ++ e :: post → A.drawn pre.length = true →
    db.get e.1 = none → staleKey db exs pre ∉ A.origin.keys

-- the condition for the chunks `es`, which come after the first `n`
def StaleFree (A : Params) (db : SortedMap Fp Fp) (n : ℕ) (exs : Fp)
    (es : List (Fp × List Byte)) : Prop :=
  ∀ pre e post, es = pre ++ e :: post → A.drawn (n + pre.length) = true →
    db.get e.1 = none → staleKey db exs pre ∉ A.origin.keys

theorem staleFree_cons (n : ℕ) (exs : Fp) (e : Fp × List Byte) (es : List (Fp × List Byte)) :
    StaleFree A db n exs (e :: es) ↔
      (A.drawn n = true → db.get e.1 = none → exs ∉ A.origin.keys) ∧
        StaleFree A db (n + 1) ((db.get e.1).getD exs) es := by
  have hindex : ∀ pre : List (Fp × List Byte), n + (e :: pre).length = n + 1 + pre.length := by
    intro pre
    rw [List.length_cons]
    omega
  rw [StaleFree, forall_split_cons (P := fun pre e _ => A.drawn (n + pre.length) = true →
    db.get e.1 = none → staleKey db exs pre ∉ A.origin.keys)]
  simp only [hindex, staleKey_cons]
  rfl

theorem leaks_genuine_iff (n : ℕ) (exs : Fp) (es : List (Fp × List Byte)) :
    (∀ p ∈ leaks A db n exs es, Genuine A db p) ↔ StaleFree A db n exs es := by
  induction es generalizing n exs with
  | nil =>
    refine ⟨fun _ pre e post h => ?_, fun _ p hp => absurd hp List.not_mem_nil⟩
    exact absurd h (by simp)
  | cons e es ih =>
    rw [staleFree_cons, leaks, List.forall_mem_append, leakPair_genuine_iff, ih]

theorem leaks_own (n : ℕ) (exs : Fp) (es : List (Fp × List Byte))
    (h : StaleFree A db n exs es) :
    leaks A db n exs es = (es.zipIdx n).filterMap fun e =>
      leakPair A (A.drawn e.2) e.1.1 (db.get e.1.1) := by
  induction es generalizing n exs with
  | nil => rfl
  | cons e es ih =>
    obtain ⟨hhead, htail⟩ := (staleFree_cons n exs e es).mp h
    rw [leaks, leakPair_own _ _ _ hhead, ih _ _ htail, List.zipIdx_cons]
    cases hpair : leakPair A (A.drawn n) e.1 (db.get e.1) with
    | none => simp only [List.filterMap_cons, hpair, Option.toList_none, List.nil_append]
    | some p => simp only [List.filterMap_cons, hpair, Option.toList_some, List.singleton_append]

end Leak

/-- The leaked pairs are the ground truth, and each of them is decided by its own
entries and draw, exactly when no stale plaintext is known to the auxiliary
database. -/
theorem leaked_pairs_genuine_iff (A : Params) (db : SortedMap Fp Fp) (exs : Fp)
    (htruth : A.truth = .relate db exs) :
    ((∀ p ∈ leakedPairs A, db.get p.2 = some p.1 ∧ p.1 ∈ A.origin.keys) ∧
        leakedPairs A = ownPairs A db) ↔ NoStaleHit A db exs := by
  have hzero : StaleFree A db 0 exs A.target.entries ↔ NoStaleHit A db exs := by
    simp only [StaleFree, NoStaleHit, Nat.zero_add]
  rw [leakedPairs_eq htruth, ← hzero]
  constructor
  · rintro ⟨hgenuine, -⟩
    exact (leaks_genuine_iff 0 exs A.target.entries).mp hgenuine
  · intro hfree
    exact ⟨(leaks_genuine_iff 0 exs A.target.entries).mpr hfree,
      leaks_own 0 exs A.target.entries hfree⟩

def oneRelated : SortedMap Fp Fp := SortedMap.empty.put (.filled 1) (.filled 9)

def bothRelated : SortedMap Fp Fp := oneRelated.put (.filled 2) (.filled 8)

def leakParams (db : SortedMap Fp Fp) : Params where
  origin := SortedMap.empty.put (.filled 9) (leBytes countSize 1)
  leftO := SortedMap.empty
  rightO := SortedMap.empty
  target := (SortedMap.empty.put (.filled 1) (leBytes countSize 1)).put (.filled 2)
    (leBytes countSize 1)
  leftT := SortedMap.empty
  rightT := SortedMap.empty
  u := 1
  v := 1
  w := 1
  u_pos := Nat.one_pos
  v_pos := Nat.one_pos
  leakage := some fun _ => true
  truth := .relate db (.filled 0)

theorem leaked_pairs_genuine_related :
    leakedPairs (leakParams bothRelated) = ownPairs (leakParams bothRelated) bothRelated := by
  have hall : ∀ e ∈ (leakParams bothRelated).target.entries, bothRelated.get e.1 ≠ none := by
    decide +kernel
  have hfree : NoStaleHit (leakParams bothRelated) bothRelated (.filled 0) := by
    intro pre e post heq _ hnone
    have hmem : e ∈ (leakParams bothRelated).target.entries := by
      rw [heq]
      exact List.mem_append_right pre (List.mem_cons_self ..)
    exact absurd hnone (hall e hmem)
  exact ((leaked_pairs_genuine_iff _ bothRelated (.filled 0) rfl).mpr hfree).2

/-- The second chunk is missing in `relate` and gets the plaintext of the first. -/
theorem leaked_pair_stale :
    leakedPairs (leakParams oneRelated) = [(.filled 9, .filled 1), (.filled 9, .filled 2)] ∧
      oneRelated.get (.filled 2) = none := by
  decide +kernel

end FreqAnalysis.Locality
