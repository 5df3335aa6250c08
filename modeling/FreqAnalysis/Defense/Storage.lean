import FreqAnalysis.Ddfs.Store
import FreqAnalysis.Defense.Combined
import Mathlib.Data.Finset.Card

/-!
# What the combined scheme costs to store (combined.sh, mle.sh)

The two scripts of the prototype store a sequence of snapshots: `mle.sh` gives every trace
to `ddfs` as it is, `combined.sh` gives it the output of `combined`. With one key for each
segment a plaintext chunk is stored once for every different least fingerprint of the
segments it occurs in; the order inside segments, and the random numbers behind it, cost
nothing.
-/

namespace FreqAnalysis.Defense
open Base Locality

structure Snapshot where
  text : List Char
  chunks : List Chunk
  rand : ℕ → ℕ
  read : readChunks text = some chunks
  nonempty : chunks ≠ []
  sizes : ∀ c ∈ chunks, 0 ≤ c.size ∧ c.size ≤ segMax

section Scripts

variable (P : Ddfs.Params) (md5 : List Byte → Digest)

/-- One round of `mle.sh`. -/
def storePlain (s : Ddfs.State P.size) (snap : Snapshot) : Option (Ddfs.State P.size) := do
  let cs ← readChunks snap.text
  (Ddfs.ddfs P s cs).toOption

/-- One round of `combined.sh`. -/
def storeCombined (st : SortedMap Fp Fp × Ddfs.State P.size) (snap : Snapshot) :
    Option (SortedMap Fp Fp × Ddfs.State P.size) := do
  let (out, relate) ← combined md5 snap.rand st.1 snap.text
  let cs ← readChunks out
  let s ← (Ddfs.ddfs P st.2 cs).toOption
  some (relate, s)

/-- Every chunk with the key it is encrypted under. -/
def Snapshot.pairs (snap : Snapshot) : List (Fp × Fp) :=
  (sealed (snap.chunks.map Node.ofChunk)).map fun p => (p.1.key, p.2)

def plaintexts (snaps : List Snapshot) : List Fp := snaps.flatMap fun s => s.chunks.map Chunk.hash

def keyed (snaps : List Snapshot) : List (Fp × Fp) := snaps.flatMap Snapshot.pairs

def ciphertexts (snaps : List Snapshot) : List Fp :=
  (keyed snaps).map fun p => cipher md5 p.1 p.2

theorem Snapshot.pairs_fst (snap : Snapshot) :
    snap.pairs.map Prod.fst = snap.chunks.map Chunk.hash := by
  have hfst := congrArg (List.map Node.key) (sealed_map_fst (snap.chunks.map Node.ofChunk))
  rw [List.map_map, List.map_map] at hfst
  rw [Snapshot.pairs, List.map_map]
  exact hfst

theorem keyed_fst (snaps : List Snapshot) : (keyed snaps).map Prod.fst = plaintexts snaps := by
  simp only [keyed, plaintexts, List.map_flatMap, Snapshot.pairs_fst]

/-! ### The scripts as runs of ddfs -/

theorem Snapshot.combined_chunks (snap : Snapshot) (relate : SortedMap Fp Fp) :
    ∃ out relate' cs, combined md5 snap.rand relate snap.text = some (out, relate') ∧
      readChunks out = some cs ∧
      (cs.map Chunk.hash).Perm (snap.pairs.map fun p => cipher md5 p.1 p.2) := by
  obtain ⟨blocks, hrun, hperms⟩ :=
    combined_run md5 snap.rand relate snap.read snap.nonempty snap.sizes
  have hperm : blocks.flatten.Perm (sealed (snap.chunks.map Node.ofChunk)) := by
    rw [sealed, List.flatMap_def]
    exact List.Perm.flatten_congr hperms
  have hlt : ∀ e ∈ ciphered md5 blocks.flatten, e.size < 2 ^ 31 :=
    List.forall_mem_map.mpr fun p hp => sealed_size_lt snap.sizes p (hperm.mem_iff.mp hp)
  refine ⟨_, _, _, hrun, readChunks_printNodes hlt, ?_⟩
  rw [ciphered, Snapshot.pairs, List.map_map, List.map_map, List.map_map]
  exact hperm.map fun p => cipher md5 p.1.key p.2

/-- `combined.sh` is a sequence of runs of `ddfs` over traces that hold the ciphertexts,
whatever was stored before. -/
theorem storeCombined_traces (snaps : List Snapshot) (relate : SortedMap Fp Fp) :
    ∃ traces : List (List Chunk), (traces.flatten.map Chunk.hash).Perm (ciphertexts md5 snaps) ∧
      ∀ s t, traces.foldlM (Ddfs.ddfs P) s = .ok t →
        ∃ relate', snaps.foldlM (storeCombined P md5) (relate, s) = some (relate', t) := by
  induction snaps generalizing relate with
  | nil =>
    refine ⟨[], List.Perm.refl _, ?_⟩
    intro s t h
    cases h
    exact ⟨relate, rfl⟩
  | cons snap snaps ih =>
    obtain ⟨out, relate1, cs, hcombined, hread, hperm⟩ := snap.combined_chunks md5 relate
    obtain ⟨traces, hperms, hruns⟩ := ih relate1
    refine ⟨cs :: traces, ?_, ?_⟩
    · rw [List.flatten_cons, List.map_append, ciphertexts, keyed, List.flatMap_cons,
        List.map_append]
      exact hperm.append hperms
    · intro s t h
      cases hone : Ddfs.ddfs P s cs with
      | error e =>
        rw [List.foldlM_cons, hone] at h
        cases h
      | ok s1 =>
        rw [List.foldlM_cons, hone] at h
        obtain ⟨relate', hrest⟩ := hruns s1 t h
        refine ⟨relate', ?_⟩
        have hround : storeCombined P md5 (relate, s) snap = some (relate1, s1) := by
          simp only [storeCombined, hcombined, hread, hone, Option.bind_eq_bind, Option.bind_some,
            Except.toOption]
        rw [List.foldlM_cons, hround]
        exact hrest

theorem storePlain_traces (snaps : List Snapshot) (s : Ddfs.State P.size) :
    snaps.foldlM (storePlain P) s
      = ((snaps.map Snapshot.chunks).foldlM (Ddfs.ddfs P) s).toOption := by
  induction snaps generalizing s with
  | nil => rfl
  | cons snap snaps ih =>
    have hround : storePlain P s snap = (Ddfs.ddfs P s snap.chunks).toOption := by
      simp only [storePlain, snap.read, Option.bind_eq_bind, Option.bind_some]
    rw [List.foldlM_cons, List.map_cons, List.foldlM_cons, hround]
    cases Ddfs.ddfs P s snap.chunks with
    | error e => rfl
    | ok s1 => exact ih s1

end Scripts

/-- `combined.sh` stores one chunk for every different pair of a plaintext chunk and the
least fingerprint of a segment around it, under any random numbers; `mle.sh` stores one
for every plaintext chunk. -/
theorem combined_storage_cost (P P' : Ddfs.Params) (md5 : List Byte → Digest)
    (snaps : List Snapshot) (relate : SortedMap Fp Fp)
    (hinj : ∀ p ∈ keyed snaps, ∀ q ∈ keyed snaps,
      cipher md5 p.1 p.2 = cipher md5 q.1 q.2 → p = q)
    (hplain : Ddfs.Unambiguous (plaintexts snaps))
    (hcipher : Ddfs.Unambiguous (ciphertexts md5 snaps)) :
    ∃ relate' s s',
      snaps.foldlM (storeCombined P md5) (relate, Ddfs.State.initial P.size) = some (relate', s) ∧
      snaps.foldlM (storePlain P') (Ddfs.State.initial P'.size) = some s' ∧
      s.updates = (keyed snaps).toFinset.card ∧
      s'.updates = (plaintexts snaps).toFinset.card ∧ s'.updates ≤ s.updates ∧
      (∀ x, x ∈ s.index.keys ↔ x ∈ ciphertexts md5 snaps) ∧
      ∀ x, x ∈ s'.index.keys ↔ x ∈ plaintexts snaps := by
  obtain ⟨traces, hperm, hruns⟩ := storeCombined_traces P md5 snaps relate
  have hdistinct : Ddfs.Unambiguous (traces.flatten.map Chunk.hash) :=
    fun x hx y hy => hcipher x (hperm.mem_iff.mp hx) y (hperm.mem_iff.mp hy)
  obtain ⟨s, hrun, hr, href⟩ := Ddfs.refines_runs P traces hdistinct
  obtain ⟨relate', hscript⟩ := hruns _ s hrun
  obtain ⟨hupdates, hkeys⟩ := href.updates_eq_card hr fun x => hperm.mem_iff
  have hflat : ((snaps.map Snapshot.chunks).flatten.map Chunk.hash) = plaintexts snaps := by
    rw [List.map_flatten, List.map_map, plaintexts, List.flatMap_def]
    rfl
  obtain ⟨s', hrun', hr', href'⟩ :=
    Ddfs.refines_runs P' (snaps.map Snapshot.chunks) (hflat ▸ hplain)
  obtain ⟨hupdates', hkeys'⟩ := href'.updates_eq_card hr' fun x => by rw [hflat]
  have hscript' : snaps.foldlM (storePlain P') (Ddfs.State.initial P'.size) = some s' := by
    rw [storePlain_traces, ← Ddfs.ddfsRuns, hrun']
    rfl
  have himage : ∀ f : Fp × Fp → Fp,
      ((keyed snaps).map f).toFinset = (keyed snaps).toFinset.image f := by
    intro f
    ext x
    simp
  have hcard : (ciphertexts md5 snaps).toFinset.card = (keyed snaps).toFinset.card := by
    rw [ciphertexts, himage]
    apply Finset.card_image_of_injOn
    intro p hp q hq
    rw [Finset.mem_coe, List.mem_toFinset] at hp hq
    exact hinj p hp q hq
  have hle : (plaintexts snaps).toFinset.card ≤ (keyed snaps).toFinset.card := by
    rw [← keyed_fst, himage]
    exact Finset.card_image_le
  exact ⟨relate', s, s', hscript, hscript', hupdates.trans hcard, hupdates', by omega, hkeys, hkeys'⟩

def snapshotOf (rs : List (Fp × ℕ)) (rand : ℕ → ℕ) (hne : rs ≠ [])
    (hsize : ∀ r ∈ rs, r.2 ≤ segMax) : Snapshot where
  text := printTrace rs
  chunks := rs.map fun r => ⟨r.1, r.2⟩
  rand := rand
  read := readChunks_printTrace rs fun r hr => lt_of_le_of_lt (hsize r hr) (by decide)
  nonempty := by simpa using hne
  sizes := by
    intro c hc
    obtain ⟨r, hr, rfl⟩ := List.mem_map.mp hc
    exact ⟨Int.natCast_nonneg _, Int.ofNat_le.mpr (hsize r hr)⟩

/-- The first chunk of both snapshots lies in segments with different least fingerprints
and is stored twice. -/
def twoSnapshots : List Snapshot :=
  [snapshotOf [(.filled 3, 8192), (.filled 2, 8192)] (fun n => n) (by decide) (by decide),
    snapshotOf [(.filled 3, 8192), (.filled 1, 8192)] (fun _ => 1) (by decide) (by decide)]

def tailDigest (l : List Byte) : Digest := ⟨resize 16 (l.drop 5), resize_length 16 _⟩

theorem combined_storage_cost_two : ∃ relate' s s',
    twoSnapshots.foldlM (storeCombined Ddfs.smallParams tailDigest)
      (SortedMap.empty, Ddfs.State.initial Ddfs.smallParams.size) = some (relate', s) ∧
    twoSnapshots.foldlM (storePlain Ddfs.smallParams)
      (Ddfs.State.initial Ddfs.smallParams.size) = some s' ∧
    s.updates = 4 ∧ s'.updates = 3 := by
  obtain ⟨relate', s, s', hC, hM, hs, hs', -⟩ := combined_storage_cost Ddfs.smallParams
    Ddfs.smallParams tailDigest twoSnapshots SortedMap.empty (by decide) (by decide) (by decide)
  exact ⟨relate', s, s', hC, hM, hs.trans (by decide), hs'.trans (by decide)⟩

end FreqAnalysis.Defense
