import FreqAnalysis.Base.SortedMap
import FreqAnalysis.Locality.Records

/-!
# Counting frequencies and neighbours (locality_count.cc)

For every chunk of a trace, `read_hashes` increments its counter in the
frequency database, counts the chunk before it in `store_left[hash]` and counts
it in `store_right[last]`. The neighbour goes through
`last_value.assign(last); last_value.resize(FP_SIZE);`, so only its C string
arrives, filled up with NULs. A run of the program counts one trace; the script
runs it over one trace after the other on the same databases.
-/

namespace FreqAnalysis.Locality
open Base

/-- `assign` and `resize` of a neighbour. Without a NUL in the array `assign`
reads past its end, and `resize` cuts off what it found. -/
def neighbour (h : Fp) : Fp := Fp.ofBytes (cStr h.val)

structure Tables where
  db : SortedMap Fp (List Byte)
  left : SortedMap Fp (List Byte)
  right : SortedMap Fp (List Byte)

def Tables.empty : Tables := ⟨SortedMap.empty, SortedMap.empty, SortedMap.empty⟩

def countFrequency (db : SortedMap Fp (List Byte)) (key : Fp) : SortedMap Fp (List Byte) :=
  match db.get key with
  | some value => (db.delete key).put key (leBytes countSize (leVal (value.take countSize) + 1))
  | none => db.put key (leBytes countSize 1)

/-- The left and the right database are updated by the same code. -/
def countNeighbour (store : SortedMap Fp (List Byte)) (key y : Fp) : SortedMap Fp (List Byte) :=
  match store.get key with
  | some value => (store.delete key).put key (countRecord value y)
  | none => store.put key (y.val ++ leBytes countSize 1)

/-- The locals `last` and `flag` of `read_hashes`, with the databases. -/
structure ReadState where
  tables : Tables
  last : Fp
  flag : Bool

def readHash (s : ReadState) (hash : Fp) : ReadState where
  tables :=
    { db := countFrequency s.tables.db hash
      left := if s.flag then countNeighbour s.tables.left hash (neighbour s.last) else s.tables.left
      right :=
        if s.flag then countNeighbour s.tables.right s.last (neighbour hash) else s.tables.right }
  last := hash
  flag := true

def readHashes (t : Tables) (trace : List Fp) : Tables :=
  (trace.foldl readHash ⟨t, Fp.ofBytes [], false⟩).tables

def countRuns (traces : List (List Fp)) : Tables := traces.foldl readHashes Tables.empty

/-! ### Folding over adjacent pairs -/

def pairs (trace : List Fp) : List (Fp × Fp) := trace.zip trace.tail

/-- The adjacent pairs of all runs. No pair spans two runs. -/
def allPairs (traces : List (List Fp)) : List (Fp × Fp) := traces.flatMap pairs

theorem foldl_readHash_running (s : ReadState) (trace : List Fp) (hf : s.flag = true) :
    (trace.foldl readHash s).tables =
      { db := trace.foldl countFrequency s.tables.db
        left := (pairs (s.last :: trace)).foldl
          (fun m p => countNeighbour m p.2 (neighbour p.1)) s.tables.left
        right := (pairs (s.last :: trace)).foldl
          (fun m p => countNeighbour m p.1 (neighbour p.2)) s.tables.right } := by
  induction trace generalizing s with
  | nil => rfl
  | cons hash trace ih =>
    have hs : readHash s hash =
        { tables :=
            { db := countFrequency s.tables.db hash
              left := countNeighbour s.tables.left hash (neighbour s.last)
              right := countNeighbour s.tables.right s.last (neighbour hash) }
          last := hash, flag := true } := by
      simp only [readHash, hf, if_true]
    rw [List.foldl_cons, ih (readHash s hash) rfl, hs]
    rfl

theorem readHashes_eq (t : Tables) (trace : List Fp) :
    readHashes t trace =
      { db := trace.foldl countFrequency t.db
        left := (pairs trace).foldl (fun m p => countNeighbour m p.2 (neighbour p.1)) t.left
        right := (pairs trace).foldl (fun m p => countNeighbour m p.1 (neighbour p.2)) t.right } := by
  cases trace with
  | nil => rfl
  | cons hash trace =>
    rw [readHashes, List.foldl_cons, foldl_readHash_running _ _ rfl]
    rfl

theorem foldl_readHashes (t : Tables) (traces : List (List Fp)) :
    traces.foldl readHashes t =
      { db := traces.flatten.foldl countFrequency t.db
        left := (allPairs traces).foldl
          (fun m p => countNeighbour m p.2 (neighbour p.1)) t.left
        right := (allPairs traces).foldl
          (fun m p => countNeighbour m p.1 (neighbour p.2)) t.right } := by
  induction traces generalizing t with
  | nil => rfl
  | cons trace traces ih =>
    rw [List.foldl_cons, ih, readHashes_eq]
    simp only [allPairs, List.flatMap_cons, List.flatten_cons, List.foldl_append]

/-! ### What the databases hold -/

def tableValue (ns : List Fp) : Option (List Byte) :=
  if ns = [] then none else some (encodeRecords (Tally.ofList ns).entries)

theorem countNeighbour_get (store : SortedMap Fp (List Byte)) (key y x : Fp) (ns : List Fp)
    (h : store.get x = tableValue ns) :
    (countNeighbour store key y).get x = tableValue (if x = key then ns ++ [y] else ns) := by
  by_cases hx : x = key
  · subst hx
    have hne : ¬ ns ++ [y] = [] := by simp
    rw [if_pos rfl, tableValue, if_neg hne, Tally.ofList_concat]
    by_cases hns : ns = []
    · subst hns
      have hget : store.get x = none := by simpa [tableValue] using h
      simp only [countNeighbour, hget, SortedMap.get_put_self, Option.some.injEq]
      simp [Tally.ofList, Tally.bump, Tally.empty, Tally.bumpEntries, encodeRecords, recordBytes]
    · rw [tableValue, if_neg hns] at h
      simp only [countNeighbour, h, SortedMap.get_put_self, countRecord_encode, Tally.bump]
  · rw [if_neg hx, ← h]
    unfold countNeighbour
    cases store.get key with
    | none => exact SortedMap.get_put_ne _ _ _ _ hx
    | some value => rw [SortedMap.get_put_ne _ _ _ _ hx, SortedMap.get_delete, if_neg hx]

theorem foldl_countNeighbour_get {α : Type} (key val : α → Fp) (l : List α)
    (store : SortedMap Fp (List Byte)) (x : Fp) (ns : List Fp) (h : store.get x = tableValue ns) :
    (l.foldl (fun m p => countNeighbour m (key p) (val p)) store).get x
      = tableValue (ns ++ (l.filter (fun p => key p = x)).map val) := by
  induction l generalizing store ns with
  | nil => simpa using h
  | cons p l ih =>
    rw [List.foldl_cons, ih _ _ (countNeighbour_get store (key p) (val p) x ns h)]
    by_cases hp : key p = x
    · have hx : x = key p := hp.symm
      rw [if_pos hx, List.filter_cons_of_pos (by simpa using hp), List.map_cons,
        List.append_assoc, List.singleton_append]
    · have hx : ¬ x = key p := fun h' => hp h'.symm
      rw [if_neg hx, List.filter_cons_of_neg (by simpa using hp)]

def counterValue (n : ℕ) : Option (List Byte) := if n = 0 then none else some (leBytes countSize n)

theorem countFrequency_get (db : SortedMap Fp (List Byte)) (key x : Fp) (n : ℕ)
    (h : db.get x = counterValue n) :
    (countFrequency db key).get x = counterValue (if x = key then n + 1 else n) := by
  by_cases hx : x = key
  · subst hx
    rw [if_pos rfl, counterValue, if_neg (Nat.succ_ne_zero n)]
    by_cases hn : n = 0
    · have hget : db.get x = none := by simpa [counterValue, hn] using h
      simp only [countFrequency, hget, SortedMap.get_put_self, hn]
    · rw [counterValue, if_neg hn] at h
      have htake : (leBytes countSize n).take countSize = leBytes countSize n :=
        List.take_of_length_le (by rw [leBytes_length])
      have hmod : leBytes countSize (n % 256 ^ countSize + 1) = leBytes countSize (n + 1) :=
        leBytes_mod _ _ _ (by rw [Nat.mod_add_mod])
      simp only [countFrequency, h, SortedMap.get_put_self, htake, leVal_leBytes, hmod]
  · rw [if_neg hx, ← h]
    unfold countFrequency
    cases db.get key with
    | none => exact SortedMap.get_put_ne _ _ _ _ hx
    | some value => rw [SortedMap.get_put_ne _ _ _ _ hx, SortedMap.get_delete, if_neg hx]

theorem foldl_countFrequency_get (trace : List Fp) (db : SortedMap Fp (List Byte)) (x : Fp)
    (n : ℕ) (h : db.get x = counterValue n) :
    (trace.foldl countFrequency db).get x = counterValue (n + trace.count x) := by
  induction trace generalizing db n with
  | nil => simpa using h
  | cons key trace ih =>
    rw [List.foldl_cons, ih _ _ (countFrequency_get db key x n h), List.count_cons]
    by_cases hx : x = key
    · subst hx
      rw [if_pos rfl, if_pos (by simp)]
      congr 1
      omega
    · have hk : ¬ (key == x) = true := fun h' => hx (beq_iff_eq.mp h').symm
      rw [if_neg hx, if_neg hk, Nat.add_zero]

/-- The chunks counted into `store_left[x]`, in order. -/
def leftOf (traces : List (List Fp)) (x : Fp) : List Fp :=
  ((allPairs traces).filter (fun p => p.2 = x)).map (fun p => neighbour p.1)

def rightOf (traces : List (List Fp)) (x : Fp) : List Fp :=
  ((allPairs traces).filter (fun p => p.1 = x)).map (fun p => neighbour p.2)

theorem countRuns_left (traces : List (List Fp)) (x : Fp) :
    (countRuns traces).left.get x = tableValue (leftOf traces x) := by
  rw [countRuns, foldl_readHashes]
  exact foldl_countNeighbour_get _ _ (allPairs traces) SortedMap.empty x [] rfl

theorem countRuns_right (traces : List (List Fp)) (x : Fp) :
    (countRuns traces).right.get x = tableValue (rightOf traces x) := by
  rw [countRuns, foldl_readHashes]
  exact foldl_countNeighbour_get _ _ (allPairs traces) SortedMap.empty x [] rfl

theorem countRuns_db (traces : List (List Fp)) (x : Fp) :
    (countRuns traces).db.get x = counterValue (traces.flatten.count x) := by
  have h := foldl_countFrequency_get traces.flatten SortedMap.empty x 0 rfl
  rw [Nat.zero_add] at h
  rw [countRuns, foldl_readHashes]
  exact h

/-- `basic_count.cc` has the frequency database only. -/
def basicCount (trace : List Fp) : SortedMap Fp (List Byte) :=
  trace.foldl countFrequency SortedMap.empty

theorem basicCount_get (trace : List Fp) (x : Fp) :
    (basicCount trace).get x = counterValue (trace.count x) := by
  have h := foldl_countFrequency_get trace SortedMap.empty x 0 rfl
  rw [Nat.zero_add] at h
  exact h

/-- The order of a trace does not matter to the frequency database. -/
theorem countRuns_db_perm {trace trace' : List Fp} (h : trace.Perm trace') :
    (countRuns [trace]).db = (countRuns [trace']).db := by
  apply SortedMap.ext_get
  intro x
  rw [countRuns_db, countRuns_db, List.flatten_singleton, List.flatten_singleton, h.count_eq]

end FreqAnalysis.Locality
