import FreqAnalysis.Base.SortedMap
import FreqAnalysis.Base.TopK
import FreqAnalysis.Locality.Records

/-!
# The locality-based attack (locality_attack.cc, locality_attack_e.cc)

`stat_db` puts leaked chunk pairs on the queues `q_o` and `q_t`; `main_loop`
starts from a frequency analysis of the two databases when nothing is leaked,
and then takes one pair after the other from the queues, counts it when it is
correct, and appends the pairs that a frequency analysis of its left and right
neighbours suggests.

The variant for the defenses differs in what a correct pair is: it looks the
plaintext of a ciphertext chunk up in the database `relate`. The two programs
are one model with that parameter.

`main_loop` is a machine whose states are the tests of its loops. An entry of a
queue carries a record of the step that pushed it, which no code reads. The
values stored in `uniq` and the list of inferred chunks are only printed or
never read, and are left out.
-/

namespace FreqAnalysis.Locality
open Base

structure Node where
  key : Fp
  count : ℕ
  deriving DecidableEq

/-- `cmp`: the queue has the least count on top. -/
def cmp (a b : Node) : Bool := a.count > b.count

theorem cmp_eq_false_iff (a b : Node) : cmp a b = false ↔ a.count ≤ b.count := by
  simp only [cmp, gt_iff_lt, decide_eq_false_iff_not]
  omega

theorem cmp_strictWeak : Heap.StrictWeak cmp := by
  constructor
  · intro a b h
    rw [cmp_eq_false_iff]
    exact (of_decide_eq_true h).le
  · intro a b c hab hbc
    rw [cmp_eq_false_iff] at hab hbc ⊢
    exact hab.trans hbc

inductive Side where
  | left
  | right
  deriving DecidableEq

inductive Truth where
  /-- `locality_attack`: the fingerprints are equal -/
  | own
  /-- `locality_attack_e`: the database `relate`, and the six bytes that the
  string `exs` shows before the first `Get` fills it -/
  | relate (db : SortedMap Fp Fp) (exs : Fp)

/-- The six databases, `INIT`, `TH_K`, `QUEUE_LIMIT`, and the leakage: nothing
for `LEAK_RATE == 0`, otherwise the outcome of the comparison with `rand()` for
each key that `stat_db` visits. -/
structure Params where
  origin : SortedMap Fp (List Byte)
  leftO : SortedMap Fp (List Byte)
  rightO : SortedMap Fp (List Byte)
  target : SortedMap Fp (List Byte)
  leftT : SortedMap Fp (List Byte)
  rightT : SortedMap Fp (List Byte)
  u : ℕ
  v : ℕ
  w : ℕ
  u_pos : 0 < u
  v_pos : 0 < v
  leakage : Option (ℕ → Bool)
  truth : Truth

namespace Params

def sideO (A : Params) : Side → SortedMap Fp (List Byte)
  | .left => A.leftO
  | .right => A.rightO

def sideT (A : Params) : Side → SortedMap Fp (List Byte)
  | .left => A.leftT
  | .right => A.rightT

def plain (A : Params) (t : Fp) : Option Fp :=
  match A.truth with
  | .own => some t
  | .relate db _ => db.get t

end Params

/-! ### Frequency analysis -/

/-- `*(uint64_t *)value.c_str()`. -/
def counter (value : List Byte) : ℕ := leVal (value.take countSize)

def dbNodes (db : SortedMap Fp (List Byte)) : List Node :=
  db.entries.map fun e => ⟨e.1, counter e.2⟩

def valueNodes (value : Option (List Byte)) : List Node :=
  match value with
  | none => []
  | some v => (records v).map fun r => ⟨r.1, r.2⟩

/-- A queue drained onto a stack: the stack from its top. -/
def stackOf (q : List Node) : List Node := (Heap.drain cmp q).reverse

/-- The entries that a queue of size `k` keeps, on the stack it is drained onto. -/
def topRanked (k : ℕ) (ns : List Node) : List Node := stackOf (Heap.select cmp k ns)

/-- `db_insert`, then `pq` drained onto the stack `tmp`. -/
def initial (k : ℕ) (db : SortedMap Fp (List Byte)) : List Node := topRanked k (dbNodes db)

/-- `left_insert` (or `right_insert`) into `pq` and `pc`, then both drained in
step until one is empty: the stacks `omp` and `tmp` from their tops. -/
def neighbourPairs (A : Params) (side : Side) (o t : Fp) : List (Node × Node) :=
  ((Heap.drain cmp (Heap.select cmp A.v (valueNodes ((A.sideO side).get o)))).zip
    (Heap.drain cmp (Heap.select cmp A.v (valueNodes ((A.sideT side).get t))))).reverse

/-! ### Queues and counters -/

/-- The step that pushed a queue entry. Leaked pairs and neighbours are
numbered by the pushes on `q_t` before them. -/
inductive Origin where
  | leaked (n : ℕ)
  | rank (i : ℕ)
  | neighbour (n : ℕ)
  deriving DecidableEq

structure Entry where
  node : Node
  origin : Origin

inductive Pc where
  | initO (tmp : List Node)
  | initT (tmp : List Node)
  | head
  | infer (side : Side) (rest : List (Node × Node))
  | done
  deriving DecidableEq

/-- `pushed` records the fingerprints pushed on `q_t`. -/
structure State where
  pc : Pc
  qO : List Entry
  qT : List Entry
  uniq : SortedMap Fp Unit
  pushed : List Fp
  total : ℕ
  common : ℕ
  correct : ℕ
  leak : ℕ
  involve : ℕ

namespace State

def empty : State := ⟨.done, [], [], SortedMap.empty, [], 0, 0, 0, 0, 0⟩

def pushO (s : State) (n : Node) : State := { s with qO := s.qO ++ [⟨n, .rank s.qO.length⟩] }

def pushT (s : State) (n : Node) : State :=
  { s with
    qT := s.qT ++ [⟨n, .rank s.qT.length⟩]
    uniq := s.uniq.put n.key ()
    pushed := s.pushed ++ [n.key] }

def pushPair (s : State) (o t : Node) (origin : Origin) : State :=
  { s with
    qO := s.qO ++ [⟨o, origin⟩]
    qT := s.qT ++ [⟨t, origin⟩]
    uniq := s.uniq.put t.key ()
    pushed := s.pushed ++ [t.key] }

def popBoth (s : State) : State :=
  { s with qO := s.qO.tail, qT := s.qT.tail, involve := s.involve + 1, pc := .head }

end State

/-! ### stat_db -/

/-- The key looked up in `origin`. On a miss `Get` leaves `exs` as it was. -/
def plainKey (A : Params) (exs t : Fp) : Fp :=
  match A.truth with
  | .own => t
  | .relate db _ => (db.get t).getD exs

def statStep (A : Params) (st : State × Fp) (e : Fp × List Byte) : State × Fp :=
  let ckey := plainKey A st.2 e.1
  let s := { st.1 with total := st.1.total + 1 }
  if (A.leakage.getD fun _ => false) st.1.total then
    let s := { s with common := s.common + 1 }
    match A.origin.get ckey with
    | some value =>
      let s := s.pushPair ⟨ckey, counter value⟩ ⟨e.1, counter e.2⟩ (.leaked s.pushed.length)
      ({ s with leak := s.leak + 1 }, ckey)
    | none => (s, ckey)
  else (s, ckey)

def exsStart (A : Params) : Fp :=
  match A.truth with
  | .own => Fp.ofBytes []
  | .relate _ exs => exs

def statDb (A : Params) : State := (A.target.entries.foldl (statStep A) (State.empty, exsStart A)).1

/-! ### main_loop -/

def start (A : Params) : State :=
  { statDb A with pc := if A.leakage.isNone then .initO (initial A.u A.origin) else .head }

def judge (A : Params) (s : State) (o t : Fp) : State :=
  { s with correct := if A.plain t = some o then s.correct + 1 else s.correct }

def enter (A : Params) (side : Side) (s : State) : State :=
  { s with
    pc := match s.qO, s.qT with
      | o :: _, t :: _ => .infer side (neighbourPairs A side o.node.key t.node.key)
      | _, _ => .infer side [] }

def leave (A : Params) (s : State) : Side → State
  | .left => enter A .right s
  | .right => s.popBoth

def step (A : Params) (s : State) : Option State :=
  match s.pc with
  | .initO [] => some { s with pc := .initT (initial A.u A.target) }
  | .initO (n :: tmp) => some { s.pushO n with pc := .initO tmp }
  | .initT [] => some { s with pc := .head }
  | .initT (n :: tmp) => some { s.pushT n with pc := .initT tmp }
  | .head =>
    match s.qO, s.qT with
    | o :: _, t :: _ => some (enter A .left (judge A s o.node.key t.node.key))
    | _, _ => some { s with pc := .done }
  | .infer side [] => some (leave A s side)
  | .infer side ((o, t) :: rest) =>
    if (s.uniq.get t.key).isSome then some { s with pc := .infer side rest }
    else if s.qO.length + 1 > A.w then some (leave A s side)
    else some { s.pushPair o t (.neighbour s.pushed.length) with pc := .infer side rest }
  | .done => none

inductive Reachable (A : Params) : State → Prop
  | start : Reachable A (start A)
  | step {s s' : State} : Reachable A s → step A s = some s' → Reachable A s'

/-! ### What a step can do -/

inductive Moves (A : Params) (s : State) : State → Prop
  | enterT : s.pc = .initO [] → Moves A s { s with pc := .initT (initial A.u A.target) }
  | pushO (n : Node) (tmp : List Node) :
      s.pc = .initO (n :: tmp) → Moves A s { s.pushO n with pc := .initO tmp }
  | enterLoop : s.pc = .initT [] → Moves A s { s with pc := .head }
  | pushT (n : Node) (tmp : List Node) :
      s.pc = .initT (n :: tmp) → Moves A s { s.pushT n with pc := .initT tmp }
  | stop : s.pc = .head → s.qO = [] ∨ s.qT = [] → Moves A s { s with pc := .done }
  | judge (o t : Entry) (qO qT : List Entry) :
      s.pc = .head → s.qO = o :: qO → s.qT = t :: qT →
      Moves A s { judge A s o.node.key t.node.key with
        pc := .infer .left (neighbourPairs A .left o.node.key t.node.key) }
  | skip (side : Side) (o t : Node) (rest : List (Node × Node)) :
      s.pc = .infer side ((o, t) :: rest) → t.key ∈ s.uniq.keys →
      Moves A s { s with pc := .infer side rest }
  | push (side : Side) (o t : Node) (rest : List (Node × Node)) :
      s.pc = .infer side ((o, t) :: rest) → t.key ∉ s.uniq.keys → s.qO.length + 1 ≤ A.w →
      Moves A s { s.pushPair o t (.neighbour s.pushed.length) with pc := .infer side rest }
  | leave (side : Side) (rest : List (Node × Node)) :
      s.pc = .infer side rest → Moves A s (leave A s side)

theorem step_moves {A : Params} {s s' : State} (h : step A s = some s') : Moves A s s' := by
  unfold step at h
  split at h
  · rename_i hpc
    cases h
    exact .enterT hpc
  · rename_i n tmp hpc
    cases h
    exact .pushO n tmp hpc
  · rename_i hpc
    cases h
    exact .enterLoop hpc
  · rename_i n tmp hpc
    cases h
    exact .pushT n tmp hpc
  · rename_i hpc
    split at h
    · rename_i o qO t qT hO hT
      cases h
      have henter : enter A .left (Locality.judge A s o.node.key t.node.key) =
          { Locality.judge A s o.node.key t.node.key with
            pc := .infer .left (neighbourPairs A .left o.node.key t.node.key) } := by
        simp only [enter, Locality.judge, hO, hT]
      rw [henter]
      exact .judge o t qO qT hpc hO hT
    · rename_i hno
      cases h
      refine .stop hpc ?_
      cases hO : s.qO with
      | nil => exact Or.inl rfl
      | cons o qO =>
        cases hT : s.qT with
        | nil => exact Or.inr rfl
        | cons t qT => exact absurd hT (hno o qO t qT hO)
  · rename_i side hpc
    cases h
    exact .leave side [] hpc
  · rename_i side o t rest hpc
    split_ifs at h with huniq hlimit
    · cases h
      refine .skip side o t rest hpc ?_
      exact (s.uniq.mem_keys_iff t.key).mpr (Option.isSome_iff_exists.mp huniq)
    · cases h
      exact .leave side _ hpc
    · cases h
      refine .push side o t rest hpc ?_ (by omega)
      rw [← s.uniq.get_eq_none_iff t.key]
      simpa using huniq
  · cases h

theorem Reachable.induct {A : Params} {I : State → Prop} (h0 : I (Locality.start A))
    (hstep : ∀ s s', Reachable A s → I s → Moves A s s' → I s') {s : State}
    (h : Reachable A s) : I s := by
  induction h with
  | start => exact h0
  | step hr heq ih => exact hstep _ _ hr ih (step_moves heq)

end FreqAnalysis.Locality
