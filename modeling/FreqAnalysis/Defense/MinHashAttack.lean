import FreqAnalysis.Defense.MinHash
import FreqAnalysis.Locality.AttackStream

/-!
# MinHash encryption against the attack (minhash.sh)

`minhash.sh` encrypts a trace with `k_minhash`, counts the plaintext trace and the
encrypted one, and runs `locality_attack_e` with the ground truth that `k_minhash`
recorded. The scheme hides frequencies by encrypting one chunk under several keys.
Where all segments have the same least fingerprint there is only one key: the
encryption is deterministic, and the attack infers every chunk.
-/

namespace FreqAnalysis.Defense
open Base Locality

section SharedCore

variable (md5 : List Byte → Digest)

theorem sealed_of_core {trace : List Node} {m : Fp} (h : ∀ seg ∈ segments trace, minKey seg = m) :
    sealed trace = trace.map fun e => (e, m) := by
  have hseg : (segments trace).flatMap sealSeg
      = (segments trace).flatMap fun seg => seg.map fun e => (e, m) := by
    apply List.flatMap_congr
    intro seg hseg
    rw [sealSeg, h seg hseg]
  rw [sealed, hseg, List.flatMap_def, ← List.map_flatten, segments_flatten]

theorem readFps_minhash_of_core {cs : List Chunk} {m : Fp}
    (hsize : ∀ c ∈ cs, 0 ≤ c.size ∧ c.size ≤ segMax)
    (hcore : ∀ seg ∈ segments (cs.map Node.ofChunk), minKey seg = m) :
    readFps (titleText ++ printNodes (ciphered md5 (sealed (cs.map Node.ofChunk))))
      = (cs.map Chunk.hash).map fun x => cipher md5 x m := by
  rw [readFps_ciphered md5 (sealed_size_lt hsize), sealed_of_core hcore, truths, List.map_map,
    List.map_map, List.map_map, List.map_map]
  rfl

/-- Different chunks of the trace get different ciphertexts. -/
def InjectiveUnder (m : Fp) (cs : List Chunk) : Prop :=
  ∀ x ∈ cs.map Chunk.hash, ∀ y ∈ cs.map Chunk.hash, cipher md5 x m = cipher md5 y m → x = y

theorem relate_of_core {cs : List Chunk} {m : Fp} (relate : SortedMap Fp Fp)
    (hcore : ∀ seg ∈ segments (cs.map Node.ofChunk), minKey seg = m)
    (hinj : InjectiveUnder md5 m cs) {x : Fp} (hx : x ∈ cs.map Chunk.hash) :
    (relate.putAll (truths md5 (sealed (cs.map Node.ofChunk)))).get (cipher md5 x m) = some x := by
  have htruths : truths md5 (sealed (cs.map Node.ofChunk))
      = (cs.map Chunk.hash).map fun x => (cipher md5 x m, x) := by
    rw [sealed_of_core hcore, truths, List.map_map, List.map_map, List.map_map]
    rfl
  have hfun : SortedMap.Functional (truths md5 (sealed (cs.map Node.ofChunk))) := by
    rw [htruths]
    intro a ha b hb hab
    obtain ⟨y, hy, rfl⟩ := List.mem_map.mp ha
    obtain ⟨z, hz, rfl⟩ := List.mem_map.mp hb
    exact hinj y hy z hz hab
  refine relate.get_putAll_of_mem _ hfun (cipher md5 x m, x) ?_
  rw [htruths]
  exact List.mem_map.mpr ⟨x, hx, rfl⟩

end SharedCore

/-- When every segment of the trace has the same least fingerprint, the attack on
the output of `k_minhash` infers all of its chunks. -/
theorem minhash_shared_core_inferred (md5 : List Byte → Digest) (rand : ℕ → ℕ)
    (relate : SortedMap Fp Fp) (text : List Char) (cs : List Chunk)
    (hread : readChunks text = some cs) (hne : cs ≠ []) (hlen : cs.length < 2 ^ 64)
    (hsize : ∀ c ∈ cs, 0 ≤ c.size ∧ c.size ≤ segMax) (m : Fp)
    (hcore : ∀ seg ∈ segments (cs.map Node.ofChunk), minKey seg = m)
    (hinj : InjectiveUnder md5 m cs)
    (hpad : ∀ x ∈ readFps text, NulPadded x ∧ NulPadded (cipher md5 x m))
    (c : Config) (exs : Fp) (hseeds : SeedsKnown c [readFps text])
    (hleak : ∀ r, c.leakage = some r → ∃ i < (readFps text).dedup.length, r i = true)
    (hv : (readFps text).dedup.length ≤ c.v) (hw : (readFps text).dedup.length ≤ c.w) :
    ∃ out relate', minhash md5 rand relate text = some (out, relate') ∧
      InfersAll (Config.attack { c with truth := .relate relate' exs } [readFps text] [readFps out])
        (readFps text).dedup.length := by
  have hfps : readFps text = cs.map Chunk.hash := readFps_of_readChunks text cs hread
  have hflat : [readFps text].flatten = readFps text := List.flatten_singleton
  have hrun : readFps text ≠ [] := by
    rw [hfps]
    simpa using hne
  have he : Encrypts (fun x => cipher md5 x m) [readFps text] := by
    refine ⟨?_, ?_, ?_⟩
    · rw [hflat, hfps]
      exact hinj
    · intro x hx
      rw [hflat] at hx
      exact (hpad x hx).1
    · intro t ht
      rw [flatten_encryptRuns, hflat] at ht
      obtain ⟨x, hx, rfl⟩ := List.mem_map.mp ht
      exact (hpad x hx).2
  refine ⟨_, _, minhash_run md5 rand relate hread hne hsize, ?_⟩
  rw [readFps_minhash_of_core md5 hsize hcore, ← hfps]
  refine Renamed.run_inferred (c := { c with truth := _ }) hrun he ?_ hleak hv hw
  refine renamed_attack { c with truth := _ } he ?_ ?_ hseeds
  · rw [hflat, hfps, List.length_map]
    exact hlen
  · intro x hx
    rw [hflat, hfps] at hx
    exact relate_of_core md5 relate hcore hinj hx

/-- One short segment, with a function that keeps the first bytes of its input in
place of MD5. -/
theorem minhash_shared_core_inferred_sample :
    ∃ out relate', minhash (fun l => ⟨resize 16 l, resize_length 16 l⟩) (fun _ => 0) SortedMap.empty
        (printTrace (sampleRun.map fun x => (x, 4096))) = some (out, relate') ∧
      InfersAll (Config.attack { sampleConfig with truth := .relate relate' (.filled 0) }
        [readFps (printTrace (sampleRun.map fun x => (x, 4096)))] [readFps out]) 3 := by
  have hread := readChunks_printTrace (sampleRun.map fun x => (x, 4096)) (by decide)
  have hfps : readFps (printTrace (sampleRun.map fun x => (x, 4096))) = sampleRun := by
    rw [readFps_of_readChunks _ _ hread]
    decide
  have h3 : (readFps (printTrace (sampleRun.map fun x => (x, 4096)))).dedup.length = 3 := by
    rw [hfps]
    decide
  have hall := minhash_shared_core_inferred (fun l => ⟨resize 16 l, resize_length 16 l⟩)
    (fun _ => 0) SortedMap.empty _ _ hread (by decide) (by decide) (by decide) (.filled 1)
    (by decide) (by unfold InjectiveUnder; decide) (by rw [hfps]; decide) sampleConfig (.filled 0)
    (by rw [hfps]; exact seedsKnown_sample) (fun r hr => by cases hr) (by rw [h3]; decide)
    (by rw [h3]; decide)
  rw [h3] at hall
  exact hall

end FreqAnalysis.Defense
