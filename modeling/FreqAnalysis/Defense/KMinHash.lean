import FreqAnalysis.Defense.Combined

/-!
# Any number of least fingerprints (K_MINHASH)

The programs are built with `K_MINHASH` equal to 1; the README offers it as a
parameter. `process_seg` drops `rand() % K_MINHASH` entries of `pq` and
reads the top, without a look at how many entries there are. A call finds as many as the
segment has chunks, and at most `K_MINHASH`; the segment is empty when the trace is, and
when its first chunk is larger than a segment may be.
-/

namespace FreqAnalysis.Defense
open Base Locality

-- the state after the program has run on a trace file, starting from the database `relate`
def runText (P : Program MinHashEnv) (relate : SortedMap Fp Fp) (text : List Char) :
    Option MinHashEnv :=
  main P ⟨[], 0, relate, titleText⟩ text

/-! ### How many entries a call finds -/

theorem offerKey_length {k : ℕ} (hk : 0 < k) {pq : List Node} (h : pq.length ≤ k) (e : Node) :
    (offerKey k pq e).length = min (pq.length + 1) k := by
  by_cases hroom : pq.length < k
  · rw [offerKey_room hroom, Heap.push_length]
    omega
  · cases pq with
    | nil => exact absurd hk hroom
    | cons max pq =>
      have hpop := Heap.pop_length keyCmp (max :: pq)
      rw [offerKey_full hroom]
      rw [List.length_cons] at h hroom hpop
      split_ifs
      · rw [Heap.push_length, hpop, List.length_cons]
        omega
      · rw [List.length_cons]
        omega

theorem foldl_offerKey_length {k : ℕ} (hk : 0 < k) (seg pq : List Node) (h : pq.length ≤ k) :
    (seg.foldl (offerKey k) pq).length = min (pq.length + seg.length) k := by
  induction seg generalizing pq with
  | nil =>
    rw [List.foldl_nil, List.length_nil]
    omega
  | cons e seg ih =>
    have hlen := offerKey_length hk h e
    rw [List.foldl_cons, ih _ (by omega), hlen, List.length_cons]
    omega

-- `pq` when `process_seg` is called for the segment
def queued (k : ℕ) (seg : List Node) : List Node := seg.foldl (offerKey k) []

theorem queued_length {k : ℕ} (hk : 0 < k) (seg : List Node) :
    (queued k seg).length = min seg.length k := by
  rw [queued, foldl_offerKey_length hk seg [] (Nat.zero_le k), List.length_nil, Nat.zero_add]

theorem foldl_keepLeastOf (k : ℕ) (seg : List Node) (env : MinHashEnv) :
    seg.foldl (keepLeastOf k) env = { env with pq := seg.foldl (offerKey k) env.pq } := by
  induction seg generalizing env with
  | nil => rfl
  | cons e seg ih => rw [List.foldl_cons, List.foldl_cons, ih]; rfl

/-- `process_seg` reads the top of a queue that is not empty exactly when fewer entries
are dropped than there are. -/
theorem drawCoreOf_cases (k : ℕ) (rand : ℕ → ℕ) (env : MinHashEnv) :
    (env.pq.length ≤ rand env.drawn % k ∧ drawCoreOf k rand env = none) ∨
      (rand env.drawn % k < env.pq.length ∧ ∃ core ∈ env.pq, ∃ pq,
        drawCoreOf k rand env
          = some (core.key, { env with pq := pq, drawn := env.drawn + 1 })) := by
  have hlen := Heap.iterate_pop_length keyCmp (rand env.drawn % k) env.pq
  unfold drawCoreOf
  cases hpop : (Heap.pop keyCmp)^[rand env.drawn % k] env.pq with
  | nil =>
    rw [hpop, List.length_nil] at hlen
    exact Or.inl ⟨by omega, rfl⟩
  | cons core pq =>
    rw [hpop, List.length_cons] at hlen
    have hmem : core ∈ env.pq := by
      apply Heap.mem_iterate_pop keyCmp
      rw [hpop]
      exact List.mem_cons_self ..
    exact Or.inr ⟨by omega, core, hmem, core :: pq, rfl⟩

theorem foldl_emit_drawn (md5 : List Byte → Digest) (core : Fp) (es : List Node)
    (env : MinHashEnv) : (es.foldl (emit md5 core) env).drawn = env.drawn := by
  induction es generalizing env with
  | nil => rfl
  | cons e es ih => rw [List.foldl_cons, ih]; rfl

/-! ### Whole runs -/

-- the draws of `process_seg`, the first of them being number `n`, each leave an entry;
-- for a segment `used` numbers are drawn
def DrawsInside (k : ℕ) (rand : ℕ → ℕ) (used : List Node → ℕ) : ℕ → List (List Node) → Prop
  | _, [] => True
  | n, seg :: segs => rand n % k < seg.length ∧ DrawsInside k rand used (n + used seg) segs

instance decidableDrawsInside (k : ℕ) (rand : ℕ → ℕ) (used : List Node → ℕ) :
    ∀ n segs, Decidable (DrawsInside k rand used n segs)
  | _, [] => isTrue trivial
  | n, seg :: segs =>
    have := decidableDrawsInside k rand used (n + used seg) segs
    inferInstanceAs (Decidable (_ ∧ _))

def Draws (k : ℕ) (rand : ℕ → ℕ) (used : List Node → ℕ) (P : Program MinHashEnv) : Prop :=
  ∀ env seg, (seg.length ≤ rand env.drawn % k ∧ segStep P env seg = none) ∨
    (rand env.drawn % k < seg.length ∧
      ∃ env', segStep P env seg = some env' ∧ env'.drawn = env.drawn + used seg)

section Safety

variable {k : ℕ} {rand : ℕ → ℕ} {used : List Node → ℕ} {P : Program MinHashEnv}

theorem foldlM_isSome_iff (h : Draws k rand used P) (segs : List (List Node)) (env : MinHashEnv) :
    (segs.foldlM (segStep P) env).isSome = true ↔ DrawsInside k rand used env.drawn segs := by
  induction segs generalizing env with
  | nil => exact ⟨fun _ => trivial, fun _ => rfl⟩
  | cons seg segs ih =>
    rw [List.foldlM_cons, DrawsInside]
    rcases h env seg with ⟨hle, hnone⟩ | ⟨hlt, env', hstep, hdrawn⟩
    · rw [hnone]
      exact ⟨fun hsome => Bool.noConfusion hsome, fun hin => absurd hin.1 (by omega)⟩
    · rw [hstep, ← hdrawn, ← ih env']
      exact ⟨fun hsome => ⟨hlt, hsome⟩, fun hin => hin.2⟩

theorem queued_cases (hk : 0 < k) (rand : ℕ → ℕ) (env : MinHashEnv) (seg : List Node) :
    (seg.length ≤ rand env.drawn % k ∧
        drawCoreOf k rand { env with pq := queued k seg } = none) ∨
      (rand env.drawn % k < seg.length ∧ ∃ core ∈ queued k seg, ∃ pq,
        drawCoreOf k rand { env with pq := queued k seg }
          = some (core.key, { env with pq := pq, drawn := env.drawn + 1 })) := by
  have hmod := Nat.mod_lt (rand env.drawn) hk
  have hlen := queued_length hk seg
  rcases drawCoreOf_cases k rand { env with pq := queued k seg } with ⟨hle, hnone⟩ | ⟨hlt, hsome⟩
  · simp only at hle
    exact Or.inl ⟨by omega, hnone⟩
  · simp only at hlt
    exact Or.inr ⟨by omega, hsome⟩

theorem draws_of_processSeg (hk : 0 < k) {encrypt : List Node → Fp × MinHashEnv → MinHashEnv}
    (hstep : ∀ env seg, segStep P env seg
      = (drawCoreOf k rand (seg.foldl (keepLeastOf k) { env with pq := [] })).map (encrypt seg))
    (hdrawn : ∀ seg r, (encrypt seg r).drawn + 1 = r.2.drawn + used seg) :
    Draws k rand used P := by
  intro env seg
  rw [hstep, foldl_keepLeastOf]
  rcases queued_cases hk rand env seg with ⟨hle, hnone⟩ | ⟨hlt, core, -, pq, hsome⟩
  · rw [queued] at hnone
    exact Or.inl ⟨hle, by rw [hnone]; rfl⟩
  · rw [queued] at hsome
    have hnext := hdrawn seg (core.key, { env with pq := pq, drawn := env.drawn + 1 })
    exact Or.inr ⟨hlt, _, by rw [hsome]; rfl, by simp only at hnext; omega⟩

theorem draws_kMinhash (hk : 0 < k) (md5 : List Byte → Digest) (rand : ℕ → ℕ) :
    Draws k rand (fun _ => 1) (kMinhashProgram k md5 rand) := by
  apply draws_of_processSeg hk (fun _ _ => rfl)
  intro seg r
  rw [foldl_emit_drawn]

theorem draws_kCombined (hk : 0 < k) (md5 : List Byte → Digest) (rand : ℕ → ℕ) :
    Draws k rand (fun seg => 1 + 2 * seg.length) (kCombinedProgram k md5 rand) := by
  apply draws_of_processSeg hk (fun _ _ => rfl)
  intro seg r
  rw [foldl_emit_drawn]
  show r.2.drawn + 2 * seg.length + 1 = r.2.drawn + (1 + 2 * seg.length)
  omega

theorem runText_isSome_iff (h : Draws k rand used P)
    (hclear : ∀ env, P.clear env = { env with pq := [] }) (relate : SortedMap Fp Fp)
    {text : List Char} {cs : List Chunk} (hread : readChunks text = some cs) :
    (runText P relate text).isSome = true ↔
      DrawsInside k rand used 0 (segments (cs.map Node.ofChunk)) := by
  rw [runText, main, hread, Option.bind_some, run_eq P _ (hclear _)]
  exact foldlM_isSome_iff h _ _

theorem runText_eq_none (h : Draws k rand used P)
    (hclear : ∀ env, P.clear env = { env with pq := [] }) (relate : SortedMap Fp Fp)
    {text : List Char} {cs : List Chunk} (hread : readChunks text = some cs)
    (hout : ¬ DrawsInside k rand used 0 (segments (cs.map Node.ofChunk))) :
    runText P relate text = none := by
  rw [← Option.not_isSome_iff_eq_none, runText_isSome_iff h hclear relate hread]
  exact hout

theorem drawsInside_of_le (hk : 0 < k) (n : ℕ) {segs : List (List Node)}
    (h : ∀ seg ∈ segs, k ≤ seg.length) : DrawsInside k rand used n segs := by
  induction segs generalizing n with
  | nil => trivial
  | cons seg segs ih =>
    have hseg := h seg (List.mem_cons_self ..)
    have hmod := Nat.mod_lt (rand n) hk
    exact ⟨by omega, ih _ fun s hs => h s (List.mem_cons_of_mem seg hs)⟩

theorem le_of_drawsInside_last (hk : 0 < k) (n : ℕ) {segs : List (List Node)}
    (h : DrawsInside k (fun _ => k - 1) used n segs) : ∀ seg ∈ segs, k ≤ seg.length := by
  induction segs generalizing n with
  | nil => exact fun seg hseg => absurd hseg List.not_mem_nil
  | cons seg segs ih =>
    have hlast : (k - 1) % k = k - 1 := Nat.mod_eq_of_lt (by omega)
    have hhead := h.1
    rw [hlast] at hhead
    exact List.forall_mem_cons.mpr ⟨by omega, ih _ h.2⟩

end Safety

theorem segments_ne_nil_iff {cs : List Chunk} (hsize : ∀ c ∈ cs, 0 ≤ c.size ∧ c.size < 2 ^ 31) :
    (∀ seg ∈ segments (cs.map Node.ofChunk), seg ≠ []) ↔
      ∃ c cs', cs = c :: cs' ∧ c.size ≤ segMax := by
  cases cs with
  | nil =>
    constructor
    · intro h
      exact absurd rfl (h [] (List.mem_singleton_self []))
    · rintro ⟨c, cs', heq, -⟩
      cases heq
  | cons c cs =>
    obtain ⟨h0, hlt⟩ := hsize c (List.mem_cons_self ..)
    have heq : ((Node.ofChunk c).size : ℤ) = c.size :=
      congrArg Chunk.size (Node.chunk_ofChunk h0 hlt).1
    constructor
    · intro h
      refine ⟨c, cs, rfl, ?_⟩
      by_contra hbig
      exact h [] (nil_mem_segments_of_lt (by omega) (by omega) _) rfl
    · rintro ⟨c', cs', hcons, hle⟩
      obtain ⟨rfl, rfl⟩ := List.cons.inj hcons
      exact segments_cons_ne_nil (by omega) _

/-- Every call of `process_seg` finds more entries in `pq` than it drops exactly when
every segment has more chunks than `rand() % K_MINHASH`; for all random numbers that is
when every segment has at least `K_MINHASH` chunks. No segment is empty when the trace
has a first chunk and it is not above the limit. -/
theorem process_seg_safe_iff (k : ℕ) (hk : 0 < k) (md5 : List Byte → Digest) (text : List Char)
    (cs : List Chunk) (hread : readChunks text = some cs)
    (hsize : ∀ c ∈ cs, 0 ≤ c.size ∧ c.size < 2 ^ 31) :
    (∀ rand relate, (runText (kMinhashProgram k md5 rand) relate text).isSome = true ↔
        DrawsInside k rand (fun _ => 1) 0 (segments (cs.map Node.ofChunk))) ∧
      (∀ rand relate, (runText (kCombinedProgram k md5 rand) relate text).isSome = true ↔
        DrawsInside k rand (fun seg => 1 + 2 * seg.length) 0 (segments (cs.map Node.ofChunk))) ∧
      ((∀ rand relate, (runText (kMinhashProgram k md5 rand) relate text).isSome = true ∧
          (runText (kCombinedProgram k md5 rand) relate text).isSome = true) ↔
        ∀ seg ∈ segments (cs.map Node.ofChunk), k ≤ seg.length) ∧
      ((∀ seg ∈ segments (cs.map Node.ofChunk), seg ≠ []) ↔
        ∃ c cs', cs = c :: cs' ∧ c.size ≤ segMax) := by
  have hminhash : ∀ rand relate, (runText (kMinhashProgram k md5 rand) relate text).isSome = true ↔
      DrawsInside k rand (fun _ => 1) 0 (segments (cs.map Node.ofChunk)) :=
    fun rand relate => runText_isSome_iff (draws_kMinhash hk md5 rand) (fun _ => rfl) relate hread
  have hcombined : ∀ rand relate,
      (runText (kCombinedProgram k md5 rand) relate text).isSome = true ↔
        DrawsInside k rand (fun seg => 1 + 2 * seg.length) 0 (segments (cs.map Node.ofChunk)) :=
    fun rand relate => runText_isSome_iff (draws_kCombined hk md5 rand) (fun _ => rfl) relate hread
  refine ⟨hminhash, hcombined, ?_, segments_ne_nil_iff hsize⟩
  constructor
  · intro hall
    exact le_of_drawsInside_last hk 0
      ((hminhash (fun _ => k - 1) SortedMap.empty).mp (hall _ SortedMap.empty).1)
  · intro hle rand relate
    exact ⟨(hminhash rand relate).mpr (drawsInside_of_le hk 0 hle),
      (hcombined rand relate).mpr (drawsInside_of_le hk 0 hle)⟩

theorem process_seg_safe_two :
    (runText (kMinhashProgram 2 (fun _ => ⟨List.replicate 16 7, rfl⟩) (fun n => n)) SortedMap.empty
      (printTrace [(.filled 2, 5), (.filled 1, 6)])).isSome = true := by
  have hread := readChunks_printTrace [(.filled 2, 5), (.filled 1, 6)] (by decide)
  have hsafe := (process_seg_safe_iff 2 Nat.two_pos (fun _ => ⟨List.replicate 16 7, rfl⟩) _ _ hread
    (by decide)).1 (fun n => n) SortedMap.empty
  exact hsafe.mpr (by decide)

/-- A title line and no chunk; a first chunk of more than 4 MB; a last segment of one
chunk where two are to be kept. -/
theorem process_seg_empty_queue :
    runText (kMinhashProgram 1 (fun _ => ⟨List.replicate 16 7, rfl⟩) (fun _ => 0)) SortedMap.empty
        (printTrace []) = none ∧
      runText (kCombinedProgram 1 (fun _ => ⟨List.replicate 16 7, rfl⟩) (fun _ => 0))
        SortedMap.empty (printTrace [(.filled 1, 4194305)]) = none ∧
      runText (kMinhashProgram 2 (fun _ => ⟨List.replicate 16 7, rfl⟩) (fun _ => 1))
        SortedMap.empty (printTrace [(.filled 1, 8192)]) = none := by
  have hnone := readChunks_printTrace [] (by decide)
  have hlarge := readChunks_printTrace [(.filled 1, 4194305)] (by decide)
  have hone := readChunks_printTrace [(.filled 1, 8192)] (by decide)
  exact ⟨runText_eq_none (draws_kMinhash Nat.one_pos _ _) (fun _ => rfl) _ hnone (by decide),
    runText_eq_none (draws_kCombined Nat.one_pos _ _) (fun _ => rfl) _ hlarge (by decide),
    runText_eq_none (draws_kMinhash Nat.two_pos _ _) (fun _ => rfl) _ hone (by decide)⟩

end FreqAnalysis.Defense
