import FreqAnalysis.Defense.MinHash
import FreqAnalysis.Defense.Scrambling

/-!
# MinHash encryption and scrambling combined (combined.cc)

`process_seg` takes the least fingerprint of the segment as `k_minhash` does, moves
the chunks to a deque as `scrambling` does, and encrypts and prints the deque. The
core is read before the chunks are moved, so the two parts do not disturb each
other: a segment gives the lines that `k_minhash` prints for it, in another order.
-/

namespace FreqAnalysis.Defense
open Base Locality

def kCombinedProgram (k : ℕ) (md5 : List Byte → Digest) (rand : ℕ → ℕ) : Program MinHashEnv where
  processSeg env sq := (drawCoreOf k rand env).map fun r =>
    (scramble rand r.2.drawn [] sq).foldl (emit md5 r.1)
      { r.2 with drawn := r.2.drawn + 2 * sq.length }
  clear env := { env with pq := [] }
  accept := keepLeastOf k

section Combine

variable (md5 : List Byte → Digest) (rand : ℕ → ℕ)

def combinedProgram : Program MinHashEnv := kCombinedProgram kMinhash md5 rand

def combined (relate : SortedMap Fp Fp) (text : List Char) :
    Option (List Char × SortedMap Fp Fp) :=
  (main (combinedProgram md5 rand) ⟨[], 0, relate, titleText⟩ text).map
    fun env => (env.out, env.relate)

theorem segStep_combined (env : MinHashEnv) {seg : List Node} (h : seg ≠ []) :
    ∃ env' block, segStep (combinedProgram md5 rand) env seg = some env' ∧
      block.Perm (sealSeg seg) ∧ Emits md5 env block env' := by
  obtain ⟨pq, hcore⟩ := drawCore_segment rand env h
  have hstep : segStep (combinedProgram md5 rand) env seg
      = some ((scramble rand (env.drawn + 1) [] seg).foldl (emit md5 (minKey seg))
          { env with pq := pq, drawn := env.drawn + 1 + 2 * seg.length }) := by
    show (drawCore rand (seg.foldl keepLeast { env with pq := [] })).map _ = _
    rw [hcore, Option.map_some]
  have hemit := foldl_emit md5 (minKey seg) (scramble rand (env.drawn + 1) [] seg)
    { env with pq := pq, drawn := env.drawn + 1 + 2 * seg.length }
  exact ⟨_, _, hstep, (scramble_perm rand _ [] seg).map _, hemit.relate, hemit.out⟩

theorem foldlM_combined (segs : List (List Node)) (hne : ∀ seg ∈ segs, seg ≠ [])
    (env : MinHashEnv) :
    ∃ env' blocks, segs.foldlM (segStep (combinedProgram md5 rand)) env = some env' ∧
      List.Forall₂ List.Perm blocks (segs.map sealSeg) ∧ Emits md5 env blocks.flatten env' := by
  obtain ⟨env', blocks, hrun, hblocks, hemits⟩ :=
    foldlM_blocks (S := fun block seg => List.Perm block (sealSeg seg)) (Emits.nil md5)
      Emits.append segs (fun seg hseg env => segStep_combined md5 rand env (hne seg hseg)) env
  exact ⟨env', blocks, hrun, List.forall₂_map_right_iff.mpr hblocks, hemits⟩

theorem combined_run (relate : SortedMap Fp Fp) {text : List Char} {cs : List Chunk}
    (hread : readChunks text = some cs) (hne : cs ≠ [])
    (hsize : ∀ c ∈ cs, 0 ≤ c.size ∧ c.size ≤ segMax) :
    ∃ blocks, combined md5 rand relate text
        = some (titleText ++ printNodes (ciphered md5 blocks.flatten),
            relate.putAll (truths md5 blocks.flatten)) ∧
      List.Forall₂ List.Perm blocks ((segments (cs.map Node.ofChunk)).map sealSeg) := by
  obtain ⟨env', blocks, hrun, hperms, hemits⟩ := foldlM_combined md5 rand _
    (segments_ofChunk_ne_nil hne hsize) ⟨[], 0, relate, titleText⟩
  have hmain : combined md5 rand relate text = some (env'.out, env'.relate) := by
    rw [combined, main, hread, Option.bind_some, run_eq _ _ rfl, hrun, Option.map_some]
  rw [hemits.out, hemits.relate] at hmain
  exact ⟨blocks, hmain, hperms⟩

end Combine

/-- The lines that `k_minhash` prints for each segment. -/
def cipherSegs (md5 : List Byte → Digest) (trace : List Node) : List (List Node) :=
  (segments trace).map fun seg => ciphered md5 (sealSeg seg)

theorem ciphered_flatten (md5 : List Byte → Digest) (blocks : List (List (Node × Fp))) :
    ciphered md5 blocks.flatten = (blocks.map (ciphered md5)).flatten := by
  rw [ciphered, List.map_flatten]
  rfl

theorem cipherSegs_flatten (md5 : List Byte → Digest) (trace : List Node) :
    ciphered md5 (sealed trace) = (cipherSegs md5 trace).flatten := by
  rw [sealed, List.flatMap_def, ciphered_flatten, List.map_map]
  rfl

/-- The combined scheme prints, segment by segment, the lines of MinHash encryption
in another order; the frequencies and the ground truth are the same. -/
theorem combined_permutes_minhash (md5 : List Byte → Digest) (rand rand' : ℕ → ℕ)
    (relate : SortedMap Fp Fp) (text : List Char) (cs : List Chunk)
    (hread : readChunks text = some cs) (hne : cs ≠ [])
    (hsize : ∀ c ∈ cs, 0 ≤ c.size ∧ c.size ≤ segMax) :
    ∃ outM relateM outC relateC blocks,
      minhash md5 rand relate text = some (outM, relateM) ∧
      combined md5 rand' relate text = some (outC, relateC) ∧
      outM = titleText ++ printNodes (cipherSegs md5 (cs.map Node.ofChunk)).flatten ∧
      outC = titleText ++ printNodes blocks.flatten ∧
      List.Forall₂ List.Perm blocks (cipherSegs md5 (cs.map Node.ofChunk)) ∧
      (countRuns [readFps outC]).db = (countRuns [readFps outM]).db ∧
      (NoCollision md5 (sealed (cs.map Node.ofChunk)) → relateC = relateM) := by
  obtain ⟨blocks, hcombined, hperms⟩ := combined_run md5 rand' relate hread hne hsize
  have hperm : blocks.flatten.Perm (sealed (cs.map Node.ofChunk)) := by
    rw [sealed, List.flatMap_def]
    exact List.Perm.flatten_congr hperms
  have hlt : ∀ p ∈ blocks.flatten, p.1.size < 2 ^ 31 :=
    fun p hp => sealed_size_lt hsize p (hperm.mem_iff.mp hp)
  have hminhash := minhash_run md5 rand relate hread hne hsize
  refine ⟨_, _, _, _, blocks.map (ciphered md5), hminhash, hcombined, ?_, ?_, ?_, ?_, ?_⟩
  · rw [cipherSegs_flatten]
  · rw [ciphered_flatten]
  · rw [cipherSegs, ← Function.comp_def, ← List.map_map, List.forall₂_map_left_iff,
      List.forall₂_map_right_iff]
    exact hperms.imp fun _ _ h => h.map _
  · rw [readFps_ciphered md5 hlt, readFps_ciphered md5 (sealed_size_lt hsize)]
    exact countRuns_db_perm ((hperm.map _).map _)
  · intro hcoll
    have hfun := hcoll.functional
    exact (relate.putAll_perm hfun (hperm.map _).symm).symm

theorem combined_permutes_minhash_two :
    ∃ outM relateM outC relateC,
      minhash mixDigest (fun _ => 0) SortedMap.empty (printTrace twoSegments)
        = some (outM, relateM) ∧
      combined mixDigest (fun n => n) SortedMap.empty (printTrace twoSegments)
        = some (outC, relateC) ∧
      (countRuns [readFps outC]).db = (countRuns [readFps outM]).db ∧ relateC = relateM := by
  have hread := readChunks_printTrace twoSegments (by decide)
  obtain ⟨outM, relateM, outC, relateC, -, hM, hC, -, -, -, hdb, hrelate⟩ :=
    combined_permutes_minhash mixDigest (fun _ => 0) (fun n => n) SortedMap.empty _ _ hread
      (by decide) (by decide)
  exact ⟨outM, relateM, outC, relateC, hM, hC, hdb, hrelate noCollision_twoSegments⟩

end FreqAnalysis.Defense
