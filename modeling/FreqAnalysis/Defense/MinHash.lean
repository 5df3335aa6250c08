import FreqAnalysis.Base.Heap
import FreqAnalysis.Base.SortedMap
import FreqAnalysis.Defense.Segment
import FreqAnalysis.Locality.CountExact
import Mathlib.Order.Bounds.Basic

/-!
# MinHash encryption (k_minhash.cc)

Every chunk of a segment is encrypted under the least fingerprint of the segment:
its ciphertext fingerprint is cut from the MD5 digest of the two fingerprints. The
pairs are put into the database `relate`, the ground truth of the attack. MD5 is an
arbitrary function here. `pq` holds `K_MINHASH` entries, a parameter of the program; as
built it is one, and then the odd comparator of `pq`, true for any two different keys,
never orders anything.
-/

namespace FreqAnalysis.Defense
open Base Locality

abbrev Digest := {l : List Byte // l.length = 16}

structure MinHashEnv where
  pq : List Node
  drawn : ℕ
  relate : SortedMap Fp Fp
  out : List Char

/-! ### The heap of least fingerprints -/

def kMinhash : ℕ := 1

def keyCmp (a b : Node) : Bool := memcmp b.key.val a.key.val ≠ 0

/-- What follows `sq.push(entry)`, on `pq`. -/
def offerKey (k : ℕ) (pq : List Node) (entry : Node) : List Node :=
  if pq.length < k then Heap.push keyCmp pq entry
  else
    match pq with
    | [] => pq
    | max :: _ =>
      if 0 < memcmp max.key.val entry.key.val then Heap.push keyCmp (Heap.pop keyCmp pq) entry
      else pq

def keepLeastOf (k : ℕ) (env : MinHashEnv) (entry : Node) : MinHashEnv :=
  { env with pq := offerKey k env.pq entry }

/-- `rand() % K_MINHASH` entries are dropped; the next one is `pq.top()`. -/
def drawCoreOf (k : ℕ) (rand : ℕ → ℕ) (env : MinHashEnv) : Option (Fp × MinHashEnv) :=
  match (Heap.pop keyCmp)^[rand env.drawn % k] env.pq with
  | [] => none
  | core :: pq => some (core.key, { env with pq := core :: pq, drawn := env.drawn + 1 })

def keepLeast : MinHashEnv → Node → MinHashEnv := keepLeastOf kMinhash

def drawCore (rand : ℕ → ℕ) : MinHashEnv → Option (Fp × MinHashEnv) := drawCoreOf kMinhash rand

theorem offerKey_room {k : ℕ} {pq : List Node} (h : pq.length < k) (e : Node) :
    offerKey k pq e = Heap.push keyCmp pq e := if_pos h

theorem offerKey_full {k : ℕ} {max : Node} {pq : List Node} (h : ¬ (max :: pq).length < k)
    (e : Node) :
    offerKey k (max :: pq) e = if e.key < max.key
      then Heap.push keyCmp (Heap.pop keyCmp (max :: pq)) e else max :: pq := by
  have hcmp : 0 < memcmp max.key.val e.key.val ↔ e.key < max.key :=
    memcmp_pos_iff _ _ (by rw [max.key.property, e.key.property])
  simp only [offerKey, if_neg h, hcmp]

def minKey : List Node → Fp
  | [] => .filled 0
  | e :: seg => seg.foldl (fun k x => min k x.key) e.key

theorem foldl_min_isLeast (k : Fp) (seg : List Node) :
    IsLeast {x | x = k ∨ x ∈ seg.map Node.key} (seg.foldl (fun k x => min k x.key) k) := by
  induction seg generalizing k with
  | nil =>
    refine ⟨Or.inl rfl, ?_⟩
    rintro x (rfl | hx)
    · exact le_rfl
    · cases hx
  | cons e seg ih =>
    obtain ⟨hmem, hle⟩ := ih (min k e.key)
    rw [List.foldl_cons]
    have hmin : seg.foldl (fun k x => min k x.key) (min k e.key) ≤ min k e.key := hle (Or.inl rfl)
    refine ⟨?_, ?_⟩
    · rcases hmem with heq | hmem
      · rw [heq]
        rcases min_choice k e.key with h | h
        · exact Or.inl h
        · exact Or.inr (by rw [h]; exact List.mem_cons_self ..)
      · exact Or.inr (List.mem_cons_of_mem _ hmem)
    · rintro x (rfl | hx)
      · exact hmin.trans (min_le_left ..)
      · rcases List.mem_cons.mp hx with rfl | hx
        · exact hmin.trans (min_le_right ..)
        · exact hle (Or.inr hx)

theorem minKey_isLeast {seg : List Node} (h : seg ≠ []) :
    IsLeast {x | x ∈ seg.map Node.key} (minKey seg) := by
  obtain ⟨e, seg, rfl⟩ := List.exists_cons_of_ne_nil h
  have hleast := foldl_min_isLeast e.key seg
  simp only [List.map_cons, List.mem_cons]
  exact hleast

theorem keepLeast_nil (env : MinHashEnv) (e : Node) :
    keepLeast { env with pq := [] } e = { env with pq := [e] } := rfl

theorem keepLeast_single (env : MinHashEnv) (m e : Node) :
    keepLeast { env with pq := [m] } e
      = { env with pq := [if e.key < m.key then e else m] } := by
  have hfull : ¬ [m].length < kMinhash := Nat.lt_irrefl 1
  simp only [keepLeast, keepLeastOf, offerKey_full hfull]
  split_ifs
  · rfl
  · rfl

theorem foldl_keepLeast_single (env : MinHashEnv) (m : Node) (seg : List Node) :
    ∃ m' : Node, m'.key = seg.foldl (fun k x => min k x.key) m.key ∧
      seg.foldl keepLeast { env with pq := [m] } = { env with pq := [m'] } := by
  induction seg generalizing m with
  | nil => exact ⟨m, rfl, rfl⟩
  | cons e seg ih =>
    obtain ⟨m', hkey, hfold⟩ := ih (if e.key < m.key then e else m)
    have hmin : (if e.key < m.key then e else m).key = min m.key e.key := by
      split_ifs with hlt
      · exact (min_eq_right hlt.le).symm
      · exact (min_eq_left (not_lt.mp hlt)).symm
    refine ⟨m', ?_, ?_⟩
    · rw [hkey, hmin, List.foldl_cons]
    · rw [List.foldl_cons, keepLeast_single, hfold]

theorem foldl_keepLeast (env : MinHashEnv) {seg : List Node} (h : seg ≠ []) :
    ∃ m : Node, m.key = minKey seg ∧
      seg.foldl keepLeast { env with pq := [] } = { env with pq := [m] } := by
  obtain ⟨e, seg, rfl⟩ := List.exists_cons_of_ne_nil h
  rw [List.foldl_cons, keepLeast_nil]
  exact foldl_keepLeast_single env e seg

theorem drawCore_single (rand : ℕ → ℕ) (env : MinHashEnv) (m : Node) :
    drawCore rand { env with pq := [m] }
      = some (m.key, { env with pq := [m], drawn := env.drawn + 1 }) := by
  have hk : rand env.drawn % kMinhash = 0 := Nat.mod_one _
  simp only [drawCore, drawCoreOf, hk, Function.iterate_zero, id_eq]

theorem drawCore_segment (rand : ℕ → ℕ) (env : MinHashEnv) {seg : List Node} (h : seg ≠ []) :
    ∃ pq, drawCore rand (seg.foldl keepLeast { env with pq := [] })
      = some (minKey seg, { env with pq := pq, drawn := env.drawn + 1 }) := by
  obtain ⟨m, hkey, hfold⟩ := foldl_keepLeast env h
  exact ⟨[m], by rw [hfold, drawCore_single, hkey]⟩

/-! ### process_seg -/

section Encrypt

variable (md5 : List Byte → Digest)

/-- `ret`, from the buffer `ft` with the fingerprint and the core. -/
def cipher (key core : Fp) : Fp :=
  ⟨(md5 (key.val ++ core.val)).val.take fpSize, by
    rw [List.length_take, (md5 (key.val ++ core.val)).property]
    rfl⟩

def emit (core : Fp) (env : MinHashEnv) (now : Node) : MinHashEnv :=
  { env with
    relate := env.relate.put (cipher md5 now.key core) now.key
    out := env.out ++ (printLine (cipher md5 now.key core) now.size ++ ['\n']) }

def kMinhashProgram (k : ℕ) (md5 : List Byte → Digest) (rand : ℕ → ℕ) : Program MinHashEnv where
  processSeg env sq := (drawCoreOf k rand env).map fun r => sq.foldl (emit md5 r.1) r.2
  clear env := { env with pq := [] }
  accept := keepLeastOf k

def minhashProgram (rand : ℕ → ℕ) : Program MinHashEnv := kMinhashProgram kMinhash md5 rand

/-- The text that `k_minhash` prints for a trace file and the database `relate`
afterwards. -/
def minhash (rand : ℕ → ℕ) (relate : SortedMap Fp Fp) (text : List Char) :
    Option (List Char × SortedMap Fp Fp) :=
  (main (minhashProgram md5 rand) ⟨[], 0, relate, titleText⟩ text).map
    fun env => (env.out, env.relate)

/-! ### What is printed and recorded -/

def sealSeg (seg : List Node) : List (Node × Fp) := seg.map fun e => (e, minKey seg)

def sealed (trace : List Node) : List (Node × Fp) := (segments trace).flatMap sealSeg

def ciphered (ps : List (Node × Fp)) : List Node :=
  ps.map fun p => ⟨cipher md5 p.1.key p.2, p.1.size⟩

def truths (ps : List (Node × Fp)) : List (Fp × Fp) :=
  ps.map fun p => (cipher md5 p.1.key p.2, p.1.key)

structure Emits (env : MinHashEnv) (ps : List (Node × Fp)) (env' : MinHashEnv) : Prop where
  relate : env'.relate = env.relate.putAll (truths md5 ps)
  out : env'.out = env.out ++ printNodes (ciphered md5 ps)

theorem Emits.nil (env : MinHashEnv) : Emits md5 env [] env :=
  ⟨rfl, by simp [ciphered, printNodes, putLines]⟩

variable {md5} in
theorem Emits.append {env env1 env2 : MinHashEnv} {ps qs : List (Node × Fp)}
    (h1 : Emits md5 env ps env1) (h2 : Emits md5 env1 qs env2) :
    Emits md5 env (ps ++ qs) env2 := by
  constructor
  · rw [h2.relate, h1.relate, truths, truths, truths, List.map_append, SortedMap.putAll,
      SortedMap.putAll, SortedMap.putAll, List.foldl_append]
  · rw [h2.out, h1.out, ciphered, ciphered, ciphered, List.map_append, printNodes_append,
      List.append_assoc]

theorem foldl_emit (core : Fp) (es : List Node) (env : MinHashEnv) :
    Emits md5 env (es.map fun e => (e, core)) (es.foldl (emit md5 core) env) := by
  induction es generalizing env with
  | nil => exact Emits.nil md5 env
  | cons e es ih =>
    have hone : Emits md5 env [(e, core)] (emit md5 core env e) :=
      ⟨rfl, by simp [emit, ciphered, printNodes, putLines]⟩
    exact hone.append (ih (emit md5 core env e))

theorem segStep_minhash (rand : ℕ → ℕ) (env : MinHashEnv) {seg : List Node} (h : seg ≠ []) :
    ∃ env', segStep (minhashProgram md5 rand) env seg = some env' ∧
      Emits md5 env (sealSeg seg) env' := by
  obtain ⟨pq, hcore⟩ := drawCore_segment rand env h
  have hstep : segStep (minhashProgram md5 rand) env seg
      = some (seg.foldl (emit md5 (minKey seg)) { env with pq := pq, drawn := env.drawn + 1 }) := by
    show (drawCore rand (seg.foldl keepLeast { env with pq := [] })).map _ = _
    rw [hcore, Option.map_some]
  have hemit := foldl_emit md5 (minKey seg) seg { env with pq := pq, drawn := env.drawn + 1 }
  exact ⟨_, hstep, hemit.relate, hemit.out⟩

theorem foldlM_minhash (rand : ℕ → ℕ) (segs : List (List Node)) (hne : ∀ seg ∈ segs, seg ≠ [])
    (env : MinHashEnv) :
    ∃ env', segs.foldlM (segStep (minhashProgram md5 rand)) env = some env' ∧
      Emits md5 env (segs.flatMap sealSeg) env' := by
  obtain ⟨env', blocks, hrun, hblocks, hemits⟩ :=
    foldlM_blocks (S := fun block seg => block = sealSeg seg) (Emits.nil md5) Emits.append segs
      (fun seg hseg env => by
        obtain ⟨env', hstep, hemits⟩ := segStep_minhash md5 rand env (hne seg hseg)
        exact ⟨env', sealSeg seg, hstep, rfl, hemits⟩) env
  have heq : blocks = segs.map sealSeg := by
    rw [← List.forall₂_eq_eq_eq, List.forall₂_map_right_iff]
    exact hblocks
  rw [heq, ← List.flatMap_def] at hemits
  exact ⟨env', hrun, hemits⟩

theorem sealed_map_fst (trace : List Node) : (sealed trace).map Prod.fst = trace := by
  have hseg : ∀ seg : List Node, (sealSeg seg).map Prod.fst = seg := by
    intro seg
    rw [sealSeg, List.map_map]
    exact List.map_id seg
  rw [sealed, List.map_flatMap]
  simp only [hseg]
  rw [List.flatMap_id', segments_flatten]

/-! ### Ground truth -/

/-- No two different plaintext chunks were printed with one ciphertext. -/
def NoCollision (ps : List (Node × Fp)) : Prop :=
  ∀ p ∈ ps, ∀ q ∈ ps, cipher md5 p.1.key p.2 = cipher md5 q.1.key q.2 → p.1.key = q.1.key

variable {md5} in
theorem NoCollision.functional {ps : List (Node × Fp)} (h : NoCollision md5 ps) :
    SortedMap.Functional (truths md5 ps) := by
  intro a ha b hb hab
  obtain ⟨p, hp, rfl⟩ := List.mem_map.mp ha
  obtain ⟨q, hq, rfl⟩ := List.mem_map.mp hb
  exact h p hp q hq hab

end Encrypt

def relatedCounts (relate : SortedMap Fp Fp) (db : SortedMap Fp (List Byte)) (x : Fp) : List ℕ :=
  (relate.entries.filter fun e => e.2 = x).map fun e => frequency (db.get e.1)

/-- Counters are 64-bit words, and so is the sum; without overflow it is exact. -/
theorem frequency_eq_relatedCounts (relate : SortedMap Fp Fp) (ps : List (Fp × Fp))
    (h : ∀ p ∈ ps, relate.get p.1 = some p.2) (x : Fp) :
    frequency ((basicCount (ps.map Prod.snd)).get x)
        = (relatedCounts relate (basicCount (ps.map Prod.fst)) x).sum % 2 ^ 64 ∧
      (ps.length < 2 ^ 64 → frequency ((basicCount (ps.map Prod.snd)).get x)
        = (relatedCounts relate (basicCount (ps.map Prod.fst)) x).sum) := by
  have hcount := relate.count_eq_sum ps h x
  have hcounts : relatedCounts relate (basicCount (ps.map Prod.fst)) x
      = (((relate.entries.filter fun e => e.2 = x).map
          fun e => (ps.map Prod.fst).count e.1).map (· % 2 ^ 64)) := by
    rw [relatedCounts, List.map_map]
    refine List.map_congr_left fun e _ => ?_
    rw [basicCount_get, frequency_counterValue_mod]
    rfl
  rw [basicCount_get, frequency_counterValue_mod, hcounts]
  refine ⟨by rw [sum_map_mod, hcount], fun hlen => ?_⟩
  have hsmall : ∀ (l : List Fp) (y : Fp), l.length = ps.length →
      l.count y % 2 ^ 64 = l.count y := by
    intro l y hl
    exact Nat.mod_eq_of_lt (lt_of_le_of_lt (List.count_le_length ..) (by omega))
  have hid : ((relate.entries.filter fun e => e.2 = x).map
      fun e => (ps.map Prod.fst).count e.1).map (· % 2 ^ 64)
      = (relate.entries.filter fun e => e.2 = x).map fun e => (ps.map Prod.fst).count e.1 := by
    rw [List.map_map]
    exact List.map_congr_left fun e _ => hsmall _ _ (List.length_map ..)
  rw [hid, ← hcount, hsmall _ _ (List.length_map ..)]

/-! ### The program -/

theorem size_lt_of_le_segMax {cs : List Chunk} (h : ∀ c ∈ cs, 0 ≤ c.size ∧ c.size ≤ segMax) :
    ∀ c ∈ cs, 0 ≤ c.size ∧ c.size < 2 ^ 31 := by
  have hmax : segMax < 2 ^ 31 := by decide
  intro c hc
  obtain ⟨h0, hle⟩ := h c hc
  exact ⟨h0, by omega⟩

theorem ofChunk_size_le {cs : List Chunk} (h : ∀ c ∈ cs, 0 ≤ c.size ∧ c.size ≤ segMax) :
    ∀ e ∈ cs.map Node.ofChunk, e.size ≤ segMax := by
  intro e he
  obtain ⟨c, hc, rfl⟩ := List.mem_map.mp he
  obtain ⟨h0, hlt⟩ := size_lt_of_le_segMax h c hc
  have heq : ((Node.ofChunk c).size : ℤ) = c.size :=
    congrArg Chunk.size (Node.chunk_ofChunk h0 hlt).1
  have hle := (h c hc).2
  omega

theorem segments_ofChunk_ne_nil {cs : List Chunk} (hne : cs ≠ [])
    (hsize : ∀ c ∈ cs, 0 ≤ c.size ∧ c.size ≤ segMax) :
    ∀ seg ∈ segments (cs.map Node.ofChunk), seg ≠ [] :=
  segments_ne_nil (by simpa using hne) (ofChunk_size_le hsize)

theorem minhash_run (md5 : List Byte → Digest) (rand : ℕ → ℕ) (relate : SortedMap Fp Fp)
    {text : List Char} {cs : List Chunk} (hread : readChunks text = some cs) (hne : cs ≠ [])
    (hsize : ∀ c ∈ cs, 0 ≤ c.size ∧ c.size ≤ segMax) :
    minhash md5 rand relate text
      = some (titleText ++ printNodes (ciphered md5 (sealed (cs.map Node.ofChunk))),
          relate.putAll (truths md5 (sealed (cs.map Node.ofChunk)))) := by
  obtain ⟨env', hrun, hemits⟩ := foldlM_minhash md5 rand _ (segments_ofChunk_ne_nil hne hsize)
    ⟨[], 0, relate, titleText⟩
  rw [minhash, main, hread, Option.bind_some, run_eq _ _ rfl, hrun, Option.map_some, hemits.out,
    hemits.relate]
  rfl

theorem readFps_ciphered (md5 : List Byte → Digest) {ps : List (Node × Fp)}
    (h : ∀ p ∈ ps, p.1.size < 2 ^ 31) :
    readFps (titleText ++ printNodes (ciphered md5 ps)) = (truths md5 ps).map Prod.fst := by
  have hsize : ∀ e ∈ ciphered md5 ps, e.size < 2 ^ 31 := List.forall_mem_map.mpr h
  rw [readFps_printNodes hsize, ciphered, truths, List.map_map, List.map_map]
  rfl

theorem sealed_size_lt {cs : List Chunk} (hsize : ∀ c ∈ cs, 0 ≤ c.size ∧ c.size ≤ segMax) :
    ∀ p ∈ sealed (cs.map Node.ofChunk), p.1.size < 2 ^ 31 := by
  intro p hp
  have hmem : p.1 ∈ cs.map Node.ofChunk := by
    rw [← sealed_map_fst (cs.map Node.ofChunk)]
    exact List.mem_map.mpr ⟨p, hp, rfl⟩
  exact ofChunk_size_lt (size_lt_of_le_segMax hsize) p.1 hmem

theorem truths_sealed_snd (md5 : List Byte → Digest) (cs : List Chunk) :
    (truths md5 (sealed (cs.map Node.ofChunk))).map Prod.snd = cs.map Chunk.hash := by
  have hkeys : (truths md5 (sealed (cs.map Node.ofChunk))).map Prod.snd
      = ((sealed (cs.map Node.ofChunk)).map Prod.fst).map Node.key := by
    rw [truths, List.map_map, List.map_map]
    rfl
  rw [hkeys, sealed_map_fst, List.map_map]
  rfl

/-- One line per chunk and in the order of the trace, encrypted under the least
fingerprint of its segment. Without a collision `relate` is the ground truth:
every ciphertext leads to its plaintext, and the frequency of a plaintext chunk is
shared out among its ciphertexts. -/
theorem minhash_encrypts (md5 : List Byte → Digest) (rand : ℕ → ℕ) (relate : SortedMap Fp Fp)
    (text : List Char) (cs : List Chunk) (hread : readChunks text = some cs) (hne : cs ≠ [])
    (hsize : ∀ c ∈ cs, 0 ≤ c.size ∧ c.size ≤ segMax) :
    ∃ out relate', minhash md5 rand relate text = some (out, relate') ∧
      (sealed (cs.map Node.ofChunk)).map (fun p => p.1.chunk) = cs ∧
      (∀ seg ∈ segments (cs.map Node.ofChunk),
        IsLeast {x | x ∈ seg.map Node.key} (minKey seg)) ∧
      out = titleText ++ printNodes (ciphered md5 (sealed (cs.map Node.ofChunk))) ∧
      (NoCollision md5 (sealed (cs.map Node.ofChunk)) →
        (∀ p ∈ sealed (cs.map Node.ofChunk),
          relate'.get (cipher md5 p.1.key p.2) = some p.1.key) ∧
        ∀ x, frequency ((basicCount (readFps text)).get x)
            = (relatedCounts relate' (basicCount (readFps out)) x).sum % 2 ^ 64 ∧
          (cs.length < 2 ^ 64 → frequency ((basicCount (readFps text)).get x)
            = (relatedCounts relate' (basicCount (readFps out)) x).sum)) := by
  have hsegs := segments_ofChunk_ne_nil hne hsize
  refine ⟨_, _, minhash_run md5 rand relate hread hne hsize, ?_,
    fun seg hseg => minKey_isLeast (hsegs seg hseg), rfl, ?_⟩
  · have hfst := congrArg (List.map Node.chunk) (sealed_map_fst (cs.map Node.ofChunk))
    rw [List.map_map, map_chunk_ofChunk (size_lt_of_le_segMax hsize)] at hfst
    exact hfst
  · intro hcoll
    have hget : ∀ q ∈ truths md5 (sealed (cs.map Node.ofChunk)),
        (relate.putAll (truths md5 (sealed (cs.map Node.ofChunk)))).get q.1 = some q.2 :=
      fun q hq => relate.get_putAll_of_mem _ hcoll.functional q hq
    refine ⟨?_, ?_⟩
    · intro p hp
      exact hget _ (List.mem_map.mpr ⟨p, hp, rfl⟩)
    · intro x
      have hfreq := frequency_eq_relatedCounts _ _ hget x
      have hlen : (truths md5 (sealed (cs.map Node.ofChunk))).length = cs.length := by
        have h := congrArg List.length (truths_sealed_snd md5 cs)
        rwa [List.length_map, List.length_map] at h
      rw [truths_sealed_snd, hlen, ← readFps_of_readChunks text cs hread,
        ← readFps_ciphered md5 (sealed_size_lt hsize)] at hfreq
      exact hfreq

-- the end of the fingerprint and the start of the core
def mixDigest (l : List Byte) : Digest := ⟨resize 16 (l.drop 3), resize_length 16 _⟩

theorem noCollision_twoSegments :
    NoCollision mixDigest (sealed (twoSegments.map fun r => ⟨r.1, r.2⟩)) := by
  rw [sealed, segments_twoSegments]
  unfold NoCollision
  decide

/-- With `mixDigest` in place of MD5 there is no collision. The chunk that occurs in both
segments has two ciphertexts, each of which leads back to it. -/
theorem minhash_encrypts_two :
    ∃ out relate', minhash mixDigest (fun _ => 0) SortedMap.empty (printTrace twoSegments)
        = some (out, relate') ∧
      relate'.get ⟨[2, 2, 2, 1, 1, 1], rfl⟩ = some (.filled 2) ∧
      relate'.get ⟨[2, 2, 2, 2, 2, 2], rfl⟩ = some (.filled 2) ∧
      (relatedCounts relate' (basicCount (readFps out)) (.filled 2)).sum = 2 := by
  have hread := readChunks_printTrace twoSegments (by decide)
  obtain ⟨out, relate', hrun, -, -, -, htruth⟩ :=
    minhash_encrypts mixDigest (fun _ => 0) SortedMap.empty _ _ hread (by decide) (by decide)
  obtain ⟨hget, hfreq⟩ := htruth noCollision_twoSegments
  have htwo : frequency ((basicCount (readFps (printTrace twoSegments))).get (.filled 2)) = 2 := by
    rw [readFps_of_readChunks _ _ hread]
    decide
  refine ⟨out, relate', hrun, ?_, ?_, ?_⟩
  · exact hget (⟨.filled 2, 3000000⟩, .filled 1) (by decide +kernel)
  · exact hget (⟨.filled 2, 3000000⟩, .filled 2) (by decide +kernel)
  · rw [← (hfreq (.filled 2)).2 (by decide), htwo]

end FreqAnalysis.Defense
