import Mathlib.Data.List.Dedup
import FreqAnalysis.Locality.CountExact
import FreqAnalysis.Locality.AttackComplete
import FreqAnalysis.Locality.AttackLeak

/-!
# Counting and attacking a stream (locality_script.sh)

The script counts an auxiliary stream and a ciphertext stream and runs the attack
on the six databases. Here the ciphertext stream is the auxiliary one under a
deterministic encryption `ρ`, and the databases are followed through `count`: the
neighbour values are written record by record in the order of the stream, so
they correspond record by record; the frequency databases are sorted by
fingerprint and correspond as sets, so the first chunks of the attack agree when
their counts tell them apart.
-/

namespace FreqAnalysis.Locality
open Base

/-- The arguments of the attack, the leakage and the way pairs are judged. -/
structure Config where
  u : ℕ
  v : ℕ
  w : ℕ
  u_pos : 0 < u
  v_pos : 0 < v
  leakage : Option (ℕ → Bool)
  truth : Truth

def Config.params (c : Config) (M C : Tables) : Params where
  origin := M.db
  leftO := M.left
  rightO := M.right
  target := C.db
  leftT := C.left
  rightT := C.right
  u := c.u
  v := c.v
  w := c.w
  u_pos := c.u_pos
  v_pos := c.v_pos
  leakage := c.leakage
  truth := c.truth

/-- Count the runs of both streams, then attack. -/
def Config.attack (c : Config) (aux target : List (List Fp)) : Params :=
  c.params (countRuns aux) (countRuns target)

/-! ### The databases of a stream -/

theorem mem_keys_countRuns (traces : List (List Fp)) (x : Fp) :
    x ∈ (countRuns traces).db.keys ↔ x ∈ traces.flatten := by
  rw [SortedMap.mem_keys_iff, countRuns_db, ← List.count_pos_iff]
  unfold counterValue
  by_cases h0 : traces.flatten.count x = 0
  · rw [if_pos h0, h0]
    simp
  · rw [if_neg h0]
    exact iff_of_true ⟨_, rfl⟩ (by omega)

def sideOf (traces : List (List Fp)) : Side → Fp → List Fp
  | .left => leftOf traces
  | .right => rightOf traces

theorem sideO_get (c : Config) (aux target : List (List Fp)) (side : Side) (x : Fp) :
    ((c.attack aux target).sideO side).get x = tableValue (sideOf aux side x) := by
  cases side with
  | left => exact countRuns_left aux x
  | right => exact countRuns_right aux x

theorem sideT_get (c : Config) (aux target : List (List Fp)) (side : Side) (x : Fp) :
    ((c.attack aux target).sideT side).get x = tableValue (sideOf target side x) := by
  cases side with
  | left => exact countRuns_left target x
  | right => exact countRuns_right target x

theorem valueNodes_tableValue (ns : List Fp) :
    valueNodes (tableValue ns)
      = (Tally.ofList ns).entries.map fun e => ⟨e.1, e.2 % 256 ^ countSize⟩ := by
  unfold tableValue
  by_cases hns : ns = []
  · rw [if_pos hns, hns]
    rfl
  · rw [if_neg hns, valueNodes, records_encode, List.map_map]
    rfl

theorem key_mem_valueNodes (ns : List Fp) (x : Fp) :
    x ∈ (valueNodes (tableValue ns)).map Node.key ↔ x ∈ ns := by
  rw [valueNodes_tableValue, List.map_map]
  exact Tally.mem_keys_ofList ns x

theorem valueNodes_length_le (ns : List Fp) : (valueNodes (tableValue ns)).length ≤ ns.dedup.length := by
  have hkeys : ((Tally.ofList ns).entries.map Prod.fst).length ≤ ns.dedup.length :=
    (Tally.ofList ns).nodup.length_le_of_subset fun x hx =>
      List.mem_dedup.mpr ((Tally.mem_keys_ofList ns x).mp hx)
  rw [valueNodes_tableValue, List.length_map]
  rw [List.length_map] at hkeys
  exact hkeys

theorem exists_of_mem_recordKeys {db : SortedMap Fp (List Byte)} {y : Fp} (h : y ∈ recordKeys db) :
    ∃ x, y ∈ (valueNodes (db.get x)).map Node.key := by
  obtain ⟨e, he, hy⟩ := List.mem_flatMap.mp h
  obtain ⟨r, hr, rfl⟩ := List.mem_map.mp hy
  refine ⟨e.1, ?_⟩
  rw [(db.get_eq_some_iff e.1 e.2).mpr he]
  exact List.mem_map.mpr ⟨_, List.mem_map.mpr ⟨r, hr, rfl⟩, rfl⟩

/-- Fingerprints that reach the databases unchanged. -/
def AllPadded (traces : List (List Fp)) : Prop := ∀ x ∈ traces.flatten, NulPadded x

theorem mem_flatten_of_mem_allPairs {traces : List (List Fp)} {p : Fp × Fp}
    (h : p ∈ allPairs traces) : p.1 ∈ traces.flatten ∧ p.2 ∈ traces.flatten := by
  obtain ⟨trace, htr, h1, h2, -⟩ := mem_allPairs h
  exact ⟨List.mem_flatten.mpr ⟨trace, htr, h1⟩, List.mem_flatten.mpr ⟨trace, htr, h2⟩⟩

theorem mem_sideOf {traces : List (List Fp)} (hpad : AllPadded traces) (side : Side) (x y : Fp) :
    y ∈ sideOf traces side x ↔
      match side with
      | .left => (y, x) ∈ allPairs traces
      | .right => (x, y) ∈ allPairs traces := by
  cases side with
  | left =>
    constructor
    · intro h
      obtain ⟨p, hp, rfl⟩ := List.mem_map.mp h
      obtain ⟨hp, hx⟩ := List.mem_filter.mp hp
      have hx : p.2 = x := of_decide_eq_true hx
      rw [(neighbour_eq_iff p.1).mpr (hpad _ (mem_flatten_of_mem_allPairs hp).1), ← hx]
      exact hp
    · intro h
      refine List.mem_map.mpr ⟨(y, x), List.mem_filter.mpr ⟨h, decide_eq_true rfl⟩, ?_⟩
      exact (neighbour_eq_iff y).mpr (hpad _ (mem_flatten_of_mem_allPairs h).1)
  | right =>
    constructor
    · intro h
      obtain ⟨p, hp, rfl⟩ := List.mem_map.mp h
      obtain ⟨hp, hx⟩ := List.mem_filter.mp hp
      have hx : p.1 = x := of_decide_eq_true hx
      rw [(neighbour_eq_iff p.2).mpr (hpad _ (mem_flatten_of_mem_allPairs hp).2), ← hx]
      exact hp
    · intro h
      refine List.mem_map.mpr ⟨(x, y), List.mem_filter.mpr ⟨h, decide_eq_true rfl⟩, ?_⟩
      exact (neighbour_eq_iff y).mpr (hpad _ (mem_flatten_of_mem_allPairs h).2)

theorem mem_flatten_of_mem_sideOf {traces : List (List Fp)} (hpad : AllPadded traces) {side : Side}
    {x y : Fp} (h : y ∈ sideOf traces side x) : y ∈ traces.flatten := by
  cases side with
  | left => exact (mem_flatten_of_mem_allPairs ((mem_sideOf hpad .left x y).mp h)).1
  | right => exact (mem_flatten_of_mem_allPairs ((mem_sideOf hpad .right x y).mp h)).2

/-! ### The encrypted stream -/

def encryptRuns (ρ : Fp → Fp) (traces : List (List Fp)) : List (List Fp) := traces.map (List.map ρ)

/-- `ρ` encrypts the chunks of the stream injectively, and neither they nor their
encryptions are changed on the way into the databases. -/
structure Encrypts (ρ : Fp → Fp) (traces : List (List Fp)) : Prop where
  inj : ∀ x ∈ traces.flatten, ∀ y ∈ traces.flatten, ρ x = ρ y → x = y
  plain : AllPadded traces
  cipher : AllPadded (encryptRuns ρ traces)

theorem flatten_encryptRuns (ρ : Fp → Fp) (traces : List (List Fp)) :
    (encryptRuns ρ traces).flatten = traces.flatten.map ρ := List.map_flatten.symm

theorem allPairs_encryptRuns (ρ : Fp → Fp) (traces : List (List Fp)) :
    allPairs (encryptRuns ρ traces) = (allPairs traces).map (Prod.map ρ ρ) := by
  have hpairs : ∀ trace : List Fp, pairs (trace.map ρ) = (pairs trace).map (Prod.map ρ ρ) := by
    intro trace
    rw [pairs, pairs, ← List.map_tail, List.zip_map]
  rw [allPairs, allPairs, encryptRuns, List.flatMap_map, List.map_flatMap]
  simp only [hpairs]

section Encrypts

variable {ρ : Fp → Fp} {traces : List (List Fp)}

theorem filter_map_encrypt (key val : Fp × Fp → Fp) (he : Encrypts ρ traces)
    (hkey : ∀ p : Fp × Fp, key (Prod.map ρ ρ p) = ρ (key p))
    (hval : ∀ p : Fp × Fp, val (Prod.map ρ ρ p) = ρ (val p))
    (hin : ∀ p ∈ allPairs traces, key p ∈ traces.flatten ∧ val p ∈ traces.flatten)
    {x : Fp} (hx : x ∈ traces.flatten) :
    ((allPairs (encryptRuns ρ traces)).filter (fun p => key p = ρ x)).map (fun p => neighbour (val p))
      = (((allPairs traces).filter (fun p => key p = x)).map fun p => neighbour (val p)).map ρ := by
  rw [allPairs_encryptRuns, List.filter_map, List.map_map, List.map_map]
  have hfilter : (allPairs traces).filter ((fun p => decide (key p = ρ x)) ∘ Prod.map ρ ρ)
      = (allPairs traces).filter fun p => key p = x := by
    apply List.filter_congr
    intro p hp
    rw [Function.comp_apply, hkey]
    exact decide_eq_decide.mpr
      ⟨fun h => he.inj _ (hin p hp).1 _ hx h, fun h => congrArg ρ h⟩
  rw [hfilter]
  apply List.map_congr_left
  intro p hp
  have hmem := (hin p (List.mem_of_mem_filter hp)).2
  have hc : NulPadded (ρ (val p)) := by
    apply he.cipher
    rw [flatten_encryptRuns]
    exact List.mem_map.mpr ⟨_, hmem, rfl⟩
  rw [Function.comp_apply, Function.comp_apply, hval, (neighbour_eq_iff _).mpr hc,
    (neighbour_eq_iff _).mpr (he.plain _ hmem)]

theorem sideOf_encryptRuns (he : Encrypts ρ traces) (side : Side) {x : Fp}
    (hx : x ∈ traces.flatten) :
    sideOf (encryptRuns ρ traces) side (ρ x) = (sideOf traces side x).map ρ := by
  cases side with
  | left =>
    exact filter_map_encrypt Prod.snd Prod.fst he (fun _ => rfl) (fun _ => rfl)
      (fun p hp => (mem_flatten_of_mem_allPairs hp).symm) hx
  | right =>
    exact filter_map_encrypt Prod.fst Prod.snd he (fun _ => rfl) (fun _ => rfl)
      (fun p hp => mem_flatten_of_mem_allPairs hp) hx

theorem valueNodes_encrypt (he : Encrypts ρ traces) (side : Side) {x : Fp}
    (hx : x ∈ traces.flatten) :
    valueNodes (tableValue (sideOf (encryptRuns ρ traces) side (ρ x)))
      = (valueNodes (tableValue (sideOf traces side x))).map (Node.rename ρ) := by
  have hinj : ∀ a ∈ sideOf traces side x, ∀ b ∈ sideOf traces side x, ρ a = ρ b → a = b :=
    fun a ha b hb => he.inj a (mem_flatten_of_mem_sideOf he.plain ha) b
      (mem_flatten_of_mem_sideOf he.plain hb)
  rw [sideOf_encryptRuns he side hx, valueNodes_tableValue, valueNodes_tableValue,
    Tally.entries_ofList_map ρ _ hinj, List.map_map, List.map_map]
  rfl

/-! ### The first chunks -/

/-- The chunks of the stream with their counts. -/
def streamNodes (traces : List (List Fp)) : List Node :=
  traces.flatten.dedup.map fun x => ⟨x, traces.flatten.count x⟩

theorem mem_dbNodes_iff (db : SortedMap Fp (List Byte)) (n : Node) :
    n ∈ dbNodes db ↔ ∃ value, db.get n.key = some value ∧ counter value = n.count := by
  constructor
  · intro h
    obtain ⟨e, he, rfl⟩ := List.mem_map.mp h
    exact ⟨e.2, (db.get_eq_some_iff _ _).mpr he, rfl⟩
  · rintro ⟨value, hget, hcount⟩
    refine List.mem_map.mpr ⟨(n.key, value), (db.get_eq_some_iff _ _).mp hget, ?_⟩
    rw [hcount]

theorem counter_leBytes {n : ℕ} (h : n < 2 ^ 64) : counter (leBytes countSize n) = n := by
  rw [counter, List.take_of_length_le (by rw [leBytes_length]), leVal_leBytes]
  exact Nat.mod_eq_of_lt h

theorem dbNodes_perm (traces : List (List Fp)) (hlen : traces.flatten.length < 2 ^ 64) :
    (dbNodes (countRuns traces).db).Perm (streamNodes traces) := by
  have hmem : ∀ n : Node, n ∈ dbNodes (countRuns traces).db ↔ n ∈ streamNodes traces := by
    intro n
    rw [mem_dbNodes_iff, countRuns_db, streamNodes, List.mem_map]
    constructor
    · rintro ⟨value, hvalue, hcount⟩
      have hpos : traces.flatten.count n.key ≠ 0 := by
        intro h0
        rw [counterValue, if_pos h0] at hvalue
        cases hvalue
      rw [counterValue, if_neg hpos, Option.some.injEq] at hvalue
      rw [← hvalue, counter_leBytes (count_lt_of_length _ hlen _)] at hcount
      refine ⟨n.key, List.mem_dedup.mpr (List.count_pos_iff.mp (by omega)), ?_⟩
      rw [hcount]
    · rintro ⟨x, hx, rfl⟩
      have hpos : traces.flatten.count x ≠ 0 := by
        have := List.count_pos_iff.mpr (List.mem_dedup.mp hx)
        omega
      exact ⟨_, if_neg hpos, counter_leBytes (count_lt_of_length _ hlen _)⟩
  have hdb : (dbNodes (countRuns traces).db).Nodup := by
    apply List.Nodup.of_map Node.key
    rw [dbNodes_map_key]
    exact SortedMap.nodup_keys _
  have hstream : (streamNodes traces).Nodup := by
    apply List.Nodup.of_map Node.key
    rw [streamNodes, List.map_map]
    exact (List.map_id _).symm ▸ List.nodup_dedup _
  exact (List.perm_ext_iff_of_nodup hdb hstream).mpr hmem

theorem streamNodes_encrypt (he : Encrypts ρ traces) :
    (streamNodes (encryptRuns ρ traces)).Perm ((streamNodes traces).map (Node.rename ρ)) := by
  have hcount : ∀ x ∈ traces.flatten,
      (encryptRuns ρ traces).flatten.count (ρ x) = traces.flatten.count x := by
    intro x hx
    rw [flatten_encryptRuns, List.count_eq_countP, List.countP_map, List.count_eq_countP]
    apply List.countP_congr
    intro y hy
    rw [Function.comp_apply, beq_iff_eq, beq_iff_eq]
    exact ⟨fun h => he.inj y hy x hx h, fun h => congrArg ρ h⟩
  have hdedup : ((encryptRuns ρ traces).flatten.dedup).Perm (traces.flatten.dedup.map ρ) := by
    refine (List.perm_ext_iff_of_nodup (List.nodup_dedup _) ?_).mpr ?_
    · refine List.Nodup.map_on ?_ (List.nodup_dedup _)
      intro x hx y hy
      exact he.inj x (List.mem_dedup.mp hx) y (List.mem_dedup.mp hy)
    · intro t
      rw [List.mem_dedup, flatten_encryptRuns, List.mem_map, List.mem_map]
      simp only [List.mem_dedup]
  refine (hdedup.map _).trans (List.Perm.of_eq ?_)
  rw [streamNodes, List.map_map, List.map_map]
  apply List.map_congr_left
  intro x hx
  simp only [Function.comp_apply, Node.rename, hcount x (List.mem_dedup.mp hx)]

theorem exists_ranks_initial {u : ℕ} (hu : 0 < u) (db : SortedMap Fp (List Byte)) :
    ∃ l, Ranks Node.count (dbNodes db) l ∧ initial u db = l.take u := by
  obtain ⟨rest, hranks⟩ := topRanked_ranks hu (dbNodes db)
  have hlen : (initial u db).length = _ := topRanked_length hu (dbNodes db)
  have htotal := hranks.perm.length_eq
  refine ⟨initial u db ++ rest, hranks, ?_⟩
  rw [List.length_append] at htotal
  rcases Nat.lt_or_ge (dbNodes db).length u with hlt | hge
  · have hnil : rest = [] := List.eq_nil_of_length_eq_zero (by
      change (initial u db).length + rest.length = _ at htotal
      omega)
    rw [hnil, List.append_nil, List.take_of_length_le (by omega)]
  · rw [List.take_left' (by omega)]

theorem initial_encrypt (he : Encrypts ρ traces) (hlen : traces.flatten.length < 2 ^ 64) {u : ℕ}
    (hu : 0 < u) (huntied : Untied Node.count u (streamNodes traces)) :
    initial u (countRuns (encryptRuns ρ traces)).db
      = (initial u (countRuns traces).db).map (Node.rename ρ) := by
  have hlen' : (encryptRuns ρ traces).flatten.length < 2 ^ 64 := by
    rw [flatten_encryptRuns, List.length_map]
    exact hlen
  obtain ⟨l, hl, heq⟩ := exists_ranks_initial hu (countRuns traces).db
  obtain ⟨l', hl', heq'⟩ := exists_ranks_initial hu (countRuns (encryptRuns ρ traces)).db
  have hM : Ranks Node.count (streamNodes traces) l := hl.of_perm (dbNodes_perm traces hlen)
  have hC : Ranks Node.count ((streamNodes traces).map (Node.rename ρ)) l' :=
    hl'.of_perm ((dbNodes_perm _ hlen').trans (streamNodes_encrypt he))
  rw [heq, heq']
  exact Ranks.take_map_of_untied (fun _ => rfl) hM hC huntied

end Encrypts

/-! ### The attack on the encrypted stream -/

section Attack

variable {ρ : Fp → Fp} {traces : List (List Fp)}

/-- What the attack starts from: distinct counts among the first `u` chunks. A
leaked pair needs none. -/
def SeedsKnown (c : Config) (traces : List (List Fp)) : Prop :=
  c.leakage = none → Untied Node.count c.u (streamNodes traces)

theorem renamed_attack (c : Config) (he : Encrypts ρ traces)
    (hlen : traces.flatten.length < 2 ^ 64)
    (hplain : ∀ x ∈ traces.flatten, (c.attack traces (encryptRuns ρ traces)).plain (ρ x) = some x)
    (hseeds : SeedsKnown c traces) : Renamed (c.attack traces (encryptRuns ρ traces)) ρ := by
  have hkeys : ∀ x, x ∈ (c.attack traces (encryptRuns ρ traces)).origin.keys ↔ x ∈ traces.flatten :=
    mem_keys_countRuns traces
  refine ⟨?_, ?_, fun x hx => hplain x ((hkeys x).mp hx), ?_, ?_⟩
  · intro side y hy
    obtain ⟨x, hx⟩ := exists_of_mem_recordKeys hy
    rw [sideO_get, key_mem_valueNodes] at hx
    exact (hkeys y).mpr (mem_flatten_of_mem_sideOf he.plain hx)
  · intro t ht
    have hmem := (mem_keys_countRuns _ t).mp ht
    rw [flatten_encryptRuns] at hmem
    obtain ⟨x, hx, rfl⟩ := List.mem_map.mp hmem
    exact ⟨x, (hkeys x).mpr hx, rfl⟩
  · intro hl
    have hinit := initial_encrypt he hlen c.u_pos (hseeds hl)
    show (initial c.u (countRuns (encryptRuns ρ traces)).db).map Node.key = _
    rw [hinit, List.map_map]
    rfl
  · intro side x hx
    rw [sideT_get, sideO_get]
    exact valueNodes_encrypt he side ((hkeys x).mp hx)

theorem length_dedup_encryptRuns (he : Encrypts ρ traces) :
    (encryptRuns ρ traces).flatten.dedup.length = traces.flatten.dedup.length := by
  have := (streamNodes_encrypt he).length_eq
  rw [List.length_map, streamNodes, streamNodes, List.length_map, List.length_map] at this
  exact this

theorem length_dedup_le_of_subset {l l' : List Fp} (h : ∀ x ∈ l, x ∈ l') :
    l.dedup.length ≤ l'.dedup.length :=
  (List.nodup_dedup l).length_le_of_subset fun x hx =>
    List.mem_dedup.mpr (h x (List.mem_dedup.mp hx))

theorem mem_candidates (c : Config) {aux target : List (List Fp)} (hpad : AllPadded target) {t : Fp}
    (ht : t ∈ candidates (c.attack aux target)) : t ∈ target.flatten := by
  have hside : ∀ side, t ∈ recordKeys ((c.attack aux target).sideT side) → t ∈ target.flatten := by
    intro side hrec
    obtain ⟨x, hx⟩ := exists_of_mem_recordKeys hrec
    rw [sideT_get, key_mem_valueNodes] at hx
    exact mem_flatten_of_mem_sideOf hpad hx
  rcases List.mem_append.mp (List.mem_dedup.mp ht) with hleft | hright
  · rcases List.mem_append.mp hleft with hkey | hleft
    · exact (mem_keys_countRuns target t).mp hkey
    · exact hside .left hleft
  · exact hside .right hright

theorem ample_attack (c : Config) (he : Encrypts ρ traces)
    (hv : traces.flatten.dedup.length ≤ c.v) (hw : traces.flatten.dedup.length ≤ c.w) :
    Ample (c.attack traces (encryptRuns ρ traces)) := by
  refine ⟨?_, ?_⟩
  · intro side x
    rw [sideO_get]
    have hle := length_dedup_le_of_subset fun y (hy : y ∈ sideOf traces side x) =>
      mem_flatten_of_mem_sideOf he.plain hy
    exact ((valueNodes_length_le _).trans hle).trans hv
  · have hle : (candidates (c.attack traces (encryptRuns ρ traces))).length
        ≤ (encryptRuns ρ traces).flatten.dedup.length :=
      (List.nodup_dedup _).length_le_of_subset fun t ht =>
        List.mem_dedup.mpr (mem_candidates c he.cipher ht)
    rw [length_dedup_encryptRuns he] at hle
    exact hle.trans hw

theorem beside_iff (c : Config) {aux target : List (List Fp)} (hpad : AllPadded target) (t t' : Fp) :
    Beside (c.attack aux target) t t' ↔
      (t', t) ∈ allPairs target ∨ (t, t') ∈ allPairs target := by
  have hside : ∀ side, t' ∈ besideT (c.attack aux target) side t ↔ t' ∈ sideOf target side t := by
    intro side
    rw [besideT, sideT_get]
    exact key_mem_valueNodes _ _
  constructor
  · rintro ⟨side, h⟩
    rw [hside side, mem_sideOf hpad] at h
    cases side with
    | left => exact Or.inl h
    | right => exact Or.inr h
  · rintro (h | h)
    · exact ⟨.left, (hside .left).mpr ((mem_sideOf hpad .left t t').mpr h)⟩
    · exact ⟨.right, (hside .right).mpr ((mem_sideOf hpad .right t t').mpr h)⟩

/-- In one run everything can be reached from everywhere. -/
theorem mem_inferable_of_run (c : Config) {aux : List (List Fp)} {run : List Fp}
    (hpad : AllPadded [run]) {x t : Fp} (hx : x ∈ seeds (c.attack aux [run])) (hxr : x ∈ run)
    (ht : t ∈ run) : t ∈ inferable (c.attack aux [run]) := by
  refine ⟨x, hx, ?_⟩
  refine reflTransGen_of_adjacent ?_ ?_ hxr ht
  · intro a b hab
    rw [beside_iff c hpad] at hab ⊢
    exact hab.symm
  · intro p hp
    rw [beside_iff c hpad]
    right
    rw [allPairs, List.flatMap_singleton]
    exact hp

/-! ### A leaked pair -/

theorem pushed_statStep {A : Params} (h : Renamed A ρ) (st : State × Fp) {e : Fp × List Byte}
    (he : e.1 ∈ A.target.keys) :
    (statStep A st e).1.total = st.1.total + 1 ∧
      (statStep A st e).1.pushed = st.1.pushed ++ (if A.drawn st.1.total then [e.1] else []) := by
  obtain ⟨value, hvalue⟩ := (A.origin.mem_keys_iff _).mp (h.plainKey_eq he st.2).1
  unfold statStep
  cases hdraw : A.drawn st.1.total with
  | false =>
    rw [Params.drawn] at hdraw
    simp only [hdraw, Bool.false_eq_true, if_false, List.append_nil, and_self]
  | true =>
    rw [Params.drawn] at hdraw
    simp only [hdraw, if_true, hvalue, State.pushPair, and_self]

theorem pushed_foldl_statStep {A : Params} (h : Renamed A ρ) (es : List (Fp × List Byte))
    (hes : ∀ e ∈ es, e.1 ∈ A.target.keys) (st : State × Fp)
    (hdraw : st.1.pushed ≠ [] ∨ ∃ i < es.length, A.drawn (st.1.total + i) = true) :
    (es.foldl (statStep A) st).1.pushed ≠ [] := by
  induction es generalizing st with
  | nil =>
    rcases hdraw with hne | ⟨i, hi, -⟩
    · exact hne
    · exact absurd hi (Nat.not_lt_zero i)
  | cons e es ih =>
    obtain ⟨he, hes⟩ := List.forall_mem_cons.mp hes
    obtain ⟨htotal, hpushed⟩ := pushed_statStep h st he
    apply ih hes
    rw [hpushed, htotal]
    rcases hdraw with hne | ⟨i, hi, hi'⟩
    · exact Or.inl (List.append_ne_nil_of_left_ne_nil hne _)
    · cases i with
      | zero =>
        rw [Nat.add_zero] at hi'
        rw [hi', if_pos rfl]
        exact Or.inl (List.append_ne_nil_of_right_ne_nil _ (List.cons_ne_nil _ _))
      | succ i =>
        rw [List.length_cons] at hi
        refine Or.inr ⟨i, by omega, ?_⟩
        rw [← hi']
        congr 1
        omega

/-- There is something to start from: a chunk without leakage, a leaked one otherwise. -/
theorem seeds_ne_nil {A : Params} (h : Renamed A ρ) (hne : A.target.entries ≠ [])
    (hdraw : A.leakage ≠ none → ∃ i < A.target.entries.length, A.drawn i = true) :
    seeds A ≠ [] := by
  unfold seeds
  cases hl : A.leakage with
  | none =>
    have hlen := initial_length A.u_pos A.target
    have hpos := List.length_pos_iff.mpr hne
    have hu := A.u_pos
    intro hnil
    have hzero : ((initial A.u A.target).map Node.key).length = 0 := by
      rw [show (initial A.u A.target).map Node.key = [] from hnil]
      rfl
    rw [List.length_map] at hzero
    omega
  | some r =>
    obtain ⟨i, hi, hi'⟩ := hdraw (by rw [hl]; exact Option.some_ne_none r)
    refine pushed_foldl_statStep h _ (fun e he => List.mem_map.mpr ⟨e, he, rfl⟩) _ (Or.inr ⟨i, hi, ?_⟩)
    rw [show (State.empty, exsStart A).1.total = 0 from rfl, Nat.zero_add]
    exact hi'

theorem seeds_subset {A : Params} {t : Fp} (ht : t ∈ seeds A) : t ∈ A.target.keys := by
  unfold seeds at ht
  split_ifs at ht with hl
  · obtain ⟨n, hn, rfl⟩ := List.mem_map.mp ht
    exact key_mem_of_mem_initial hn
  · exact (statDb_inv A).pushed.subset ht

/-- Nothing that is leaked is missing from the auxiliary stream. -/
theorem RateInv.common_eq {A : Params} {s : State} (h : Renamed A ρ) (hi : RateInv A s) :
    s.common = s.leak := by
  obtain ⟨missed, hsub, hcommon, hmissed⟩ := hi.missed
  have hnil : missed = [] := by
    apply List.eq_nil_iff_forall_not_mem.mpr
    intro t ht
    obtain ⟨x, hx, rfl⟩ := h.keys t (hsub.subset ht)
    exact hmissed _ ht x (h.plain x hx) hx
  rw [hcommon, hnil, List.length_nil, Nat.add_zero]

theorem Renamed.all_inferred {A : Params} (h : Renamed A ρ) (ha : Ample A)
    (hC : ∀ side, ∀ t ∈ recordKeys (A.sideT side), t ∈ A.target.keys)
    (hreach : ∀ t ∈ A.target.keys, t ∈ inferable A) {f : State} (hr : Reachable A f)
    (hdone : f.pc = .done) :
    f.total = A.target.keys.length ∧ f.correct + f.common - f.leak = f.total := by
  have hrate := hr.rateInv
  obtain ⟨hall, hpushed⟩ := pushed_eq_inferable h ha hr hdone
  have hcorrect := (hr.tracked h).correct
  rw [hdone, hall] at hcorrect
  have hdrawn : ∀ t ∈ f.pushed, t ∈ A.target.keys :=
    (hr.drawn (O := fun _ => True) ⟨fun _ _ => trivial, fun _ _ _ => trivial, fun _ ht => ht, hC⟩).pushed
  have hperm : f.pushed.Perm A.target.keys := by
    refine (List.perm_ext_iff_of_nodup hr.inferInv.nodup A.target.nodup_keys).mpr fun t => ?_
    refine ⟨hdrawn t, fun ht => ?_⟩
    have hmem := hreach t ht
    rw [← hpushed] at hmem
    exact hmem
  refine ⟨hrate.total, ?_⟩
  rw [hrate.common_eq h, Nat.add_sub_cancel, hcorrect, hrate.total, ← hperm.length_eq]
  rfl

theorem recordKeys_subset_target (c : Config) {aux target : List (List Fp)}
    (hpad : AllPadded target) (side : Side) {t : Fp}
    (ht : t ∈ recordKeys ((c.attack aux target).sideT side)) :
    t ∈ (c.attack aux target).target.keys := by
  obtain ⟨x, hx⟩ := exists_of_mem_recordKeys ht
  rw [sideT_get, key_mem_valueNodes] at hx
  exact (mem_keys_countRuns target t).mpr (mem_flatten_of_mem_sideOf hpad hx)

theorem keys_length_encrypted (c : Config) (he : Encrypts ρ traces) :
    (c.attack traces (encryptRuns ρ traces)).target.keys.length = traces.flatten.dedup.length := by
  have hperm : (c.attack traces (encryptRuns ρ traces)).target.keys.Perm
      (encryptRuns ρ traces).flatten.dedup :=
    (List.perm_ext_iff_of_nodup (SortedMap.nodup_keys _) (List.nodup_dedup _)).mpr fun t =>
      (mem_keys_countRuns _ t).trans List.mem_dedup.symm
  rw [hperm.length_eq, length_dedup_encryptRuns he]

theorem encrypted_run_reached (c : Config) {run : List Fp} (hne : run ≠ []) (he : Encrypts ρ [run])
    (h : Renamed (c.attack [run] (encryptRuns ρ [run])) ρ)
    (hleak : ∀ r, c.leakage = some r → ∃ i < run.dedup.length, r i = true) {t : Fp}
    (ht : t ∈ (c.attack [run] (encryptRuns ρ [run])).target.keys) :
    t ∈ inferable (c.attack [run] (encryptRuns ρ [run])) := by
  have hmem : ∀ x, x ∈ (c.attack [run] (encryptRuns ρ [run])).target.keys → x ∈ run.map ρ := by
    intro x hx
    have hflat := (mem_keys_countRuns _ x).mp hx
    rw [flatten_encryptRuns, List.flatten_singleton] at hflat
    exact hflat
  have hlen : (c.attack [run] (encryptRuns ρ [run])).target.entries.length = run.dedup.length := by
    have := keys_length_encrypted c he
    rw [List.flatten_singleton, SortedMap.keys, List.length_map] at this
    exact this
  have hseeds : seeds (c.attack [run] (encryptRuns ρ [run])) ≠ [] := by
    apply seeds_ne_nil h
    · intro hnil
      obtain ⟨x, hx⟩ := List.exists_mem_of_ne_nil _ hne
      have hpos := List.length_pos_of_mem (List.mem_dedup.mpr hx)
      rw [hnil, List.length_nil] at hlen
      omega
    · intro hsome
      obtain ⟨r, hr⟩ := Option.ne_none_iff_exists'.mp hsome
      obtain ⟨i, hi, hri⟩ := hleak r hr
      refine ⟨i, by omega, ?_⟩
      rw [Params.drawn, hr]
      exact hri
  obtain ⟨x, hx⟩ := List.exists_mem_of_ne_nil _ hseeds
  exact mem_inferable_of_run c he.cipher hx (hmem x (seeds_subset hx)) (hmem t ht)

/-- The main loop ends, and then `n` ciphertext chunks are counted and all of them
inferred. -/
def InfersAll (A : Params) (n : ℕ) : Prop :=
  (∃ f, Reachable A f ∧ f.pc = .done) ∧
    ∀ f, Reachable A f → f.pc = .done → f.total = n ∧ f.correct + f.common - f.leak = n

theorem Renamed.run_inferred {c : Config} {run : List Fp} (hne : run ≠ []) (he : Encrypts ρ [run])
    (h : Renamed (c.attack [run] (encryptRuns ρ [run])) ρ)
    (hleak : ∀ r, c.leakage = some r → ∃ i < run.dedup.length, r i = true)
    (hv : run.dedup.length ≤ c.v) (hw : run.dedup.length ≤ c.w) :
    InfersAll (c.attack [run] (encryptRuns ρ [run])) run.dedup.length := by
  have hflat : [run].flatten = run := List.flatten_singleton
  rw [← hflat] at hv hw
  constructor
  · obtain ⟨s0, hinit⟩ := exists_afterInit (c.attack [run] (encryptRuns ρ [run]))
    obtain ⟨f, hrun, hdone⟩ := run_to_done _ _ s0 hinit.reachable hinit.head (Nat.le_add_left ..)
    exact ⟨f, hinit.reachable.run hrun, hdone⟩
  · intro f hr hdone
    obtain ⟨htotal, hrate⟩ := h.all_inferred (ample_attack c he hv hw)
      (fun side _ ht => recordKeys_subset_target c he.cipher side ht)
      (fun _ ht => encrypted_run_reached c hne he h hleak ht) hr hdone
    rw [keys_length_encrypted c he, hflat] at htotal
    exact ⟨htotal, hrate.trans htotal⟩

/-- The attack infers a deterministically encrypted run completely: its neighbour
tables lead from any chunk to every other one, and every pair it forms is a chunk
and its encryption. -/
theorem encrypted_run_inferred (c : Config) (run : List Fp) (ρ : Fp → Fp) (hne : run ≠ [])
    (hlen : run.length < 2 ^ 64) (he : Encrypts ρ [run])
    (hplain : ∀ x ∈ run, (c.attack [run] (encryptRuns ρ [run])).plain (ρ x) = some x)
    (hseeds : SeedsKnown c [run])
    (hleak : ∀ r, c.leakage = some r → ∃ i < run.dedup.length, r i = true)
    (hv : run.dedup.length ≤ c.v) (hw : run.dedup.length ≤ c.w) :
    InfersAll (c.attack [run] (encryptRuns ρ [run])) run.dedup.length := by
  have hflat : [run].flatten = run := List.flatten_singleton
  rw [← hflat] at hlen hplain
  exact (renamed_attack c he hlen hplain hseeds).run_inferred hne he hleak hv hw

/-- With any bounds, and over any number of runs, no pair of the attack on a
deterministically encrypted stream is wrong. -/
theorem encrypted_stream_precise (c : Config) (traces : List (List Fp)) (ρ : Fp → Fp)
    (hlen : traces.flatten.length < 2 ^ 64) (he : Encrypts ρ traces)
    (hplain : ∀ x ∈ traces.flatten, (c.attack traces (encryptRuns ρ traces)).plain (ρ x) = some x)
    (hseeds : SeedsKnown c traces) (s : State)
    (hr : Reachable (c.attack traces (encryptRuns ρ traces)) s) :
    s.correct = s.involve + judged s.pc ∧ ∀ t ∈ s.pushed, ∃ x ∈ traces.flatten, ρ x = t := by
  have hM := renamed_attack c he hlen hplain hseeds
  refine ⟨(hr.tracked hM).correct, ?_⟩
  intro t ht
  have hkey := (hr.drawn (O := fun _ => True) (T := fun t => t ∈ _) ⟨fun _ _ => trivial,
    fun _ _ _ => trivial, fun _ ht => ht,
    fun side _ ht => recordKeys_subset_target c he.cipher side ht⟩).pushed t ht
  obtain ⟨x, hx, rfl⟩ := hM.keys t hkey
  exact ⟨x, (mem_keys_countRuns traces x).mp hx, rfl⟩

end Attack

/-- The run a b a c, encrypted as d e d f, one chunk to start from. -/
def sampleRun : List Fp := [.filled 1, .filled 2, .filled 1, .filled 3]

def sampleCipher (x : Fp) : Fp :=
  if x = .filled 1 then .filled 6 else if x = .filled 2 then .filled 5 else .filled 4

def sampleConfig : Config where
  u := 1
  v := 3
  w := 3
  u_pos := Nat.one_pos
  v_pos := Nat.succ_pos 2
  leakage := none
  truth := .relate (SortedMap.empty.putAll [(.filled 6, .filled 1), (.filled 5, .filled 2),
    (.filled 4, .filled 3)]) (.filled 0)

theorem encrypts_sample : Encrypts sampleCipher [sampleRun] :=
  ⟨by decide, by unfold AllPadded; decide, by unfold AllPadded; decide⟩

theorem plain_sample : ∀ x ∈ sampleRun,
    (sampleConfig.attack [sampleRun] (encryptRuns sampleCipher [sampleRun])).plain (sampleCipher x)
      = some x := by
  decide +kernel

theorem seedsKnown_sample : SeedsKnown sampleConfig [sampleRun] := by
  intro _
  unfold Untied
  decide +kernel

theorem encrypted_stream_precise_sample :
    ∃ f, Reachable (sampleConfig.attack [sampleRun] (encryptRuns sampleCipher [sampleRun])) f ∧
      f.pc = .done ∧ f.correct = f.involve := by
  obtain ⟨s0, hinit⟩ :=
    exists_afterInit (sampleConfig.attack [sampleRun] (encryptRuns sampleCipher [sampleRun]))
  obtain ⟨f, hrun, hdone⟩ := run_to_done _ _ s0 hinit.reachable hinit.head (Nat.le_add_left ..)
  have hr := hinit.reachable.run hrun
  have hall := (encrypted_stream_precise sampleConfig [sampleRun] sampleCipher (by decide)
    encrypts_sample plain_sample seedsKnown_sample f hr).1
  rw [hdone] at hall
  exact ⟨f, hr, hdone, hall⟩

theorem encrypted_run_inferred_sample :
    ∃ f, Reachable (sampleConfig.attack [sampleRun] (encryptRuns sampleCipher [sampleRun])) f ∧
      f.pc = .done ∧ f.total = 3 ∧ f.correct + f.common - f.leak = 3 := by
  obtain ⟨⟨f, hr, hdone⟩, hall⟩ := encrypted_run_inferred sampleConfig sampleRun sampleCipher
    (by decide) (by decide) encrypts_sample plain_sample seedsKnown_sample
    (fun r hr => by cases hr) (by decide) (by decide)
  obtain ⟨htotal, hrate⟩ := hall f hr hdone
  have h3 : sampleRun.dedup.length = 3 := by decide
  exact ⟨f, hr, hdone, htotal.trans h3, hrate.trans h3⟩

end FreqAnalysis.Locality
