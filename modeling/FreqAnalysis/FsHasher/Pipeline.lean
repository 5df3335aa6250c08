import FreqAnalysis.Ddfs.Store
import FreqAnalysis.FsHasher.HfStat

/-!
# From files to the deduplication prototype (mle.sh)

A backup is a scan: `fs-hasher` adds every file to the hash file of each chunking method,
`hf-stat -h` prints the hash file of one of them, and `ddfs` stores the trace. The trace is
the list of the chunks of all files, so over any number of backups `ddfs` ends with one
entry for every different fingerprint of a chunk.
-/

namespace FreqAnalysis.FsHasher
open Base

/-- A file or a symbolic link of the scanned tree. -/
structure ScanFile where
  path : CPath
  stat : Stat
  target : CPath
  src : Source

def ScanFile.turns (configs : List Config) (f : ScanFile) : ℕ :=
  configs.length * (2 * f.src.file.length + 2) + 2

/-- What `process_file` adds to the hash file of each method; a link has no chunks. -/
def scanFile (configs : List Config) (f : ScanFile) : Option (List (List ChunkInfo)) :=
  if isLnk f.stat.stMode then some (configs.map fun _ => [])
  else (processFile f.src configs (f.turns configs)).map fun s => s.dedups.map Dedup.added

def scanEntry (configs : List Config) (i : ℕ) (f : ScanFile) : Option Entry := do
  let added ← scanFile configs f
  let chunks ← added[i]?
  some ⟨f.path, f.stat, f.target, chunks⟩

def Config.chnkingMethod (c : Config) : ChnkingMethod :=
  match c.chnkMethod with
  | .fixed fc => .fixed (UInt32.ofNat fc.csize)
  | .var _ => .var

/-- A scan with the memory that the two programs start from. -/
structure Backup where
  files : List ScanFile
  junk : FileHeader
  junk' : FileHeader
  stale : ℕ

/-- What `hf-stat -h` prints of the hash file of method `i`. -/
def Backup.trace (configs : List Config) (i : ℕ) (b : Backup) : Option (List Char) := do
  let c ← configs[i]?
  let entries ← b.files.mapM (scanEntry configs i)
  hfStat (writeHashFile c.chnkingMethod 48 b.junk entries) b.junk' b.stale

def storeBackup (P : Ddfs.Params) (configs : List Config) (i : ℕ) (s : Ddfs.State P.size)
    (b : Backup) : Option (Ddfs.State P.size) := do
  let text ← b.trace configs i
  let cs ← readChunks text
  (Ddfs.ddfs P s cs).toOption

/-! ### The trace -/

/-- The chunks of a file of the scan. -/
def ScanFile.chunks (c : Config) (f : ScanFile) : List (List Byte) :=
  if isLnk f.stat.stMode then [] else chunksOf c.chnkMethod f.src.file

def ScanFile.entry (c : Config) (f : ScanFile) : Entry :=
  ⟨f.path, f.stat, f.target, (f.chunks c).map c.info⟩

def Config.chunk (c : Config) (ch : List Byte) : Chunk := ⟨Fp.ofBytes (c.hashMethod ch), ch.length⟩

def Backup.chunks (c : Config) (b : Backup) : List Chunk :=
  (b.files.flatMap fun f => f.chunks c).map c.chunk

/-- The window serves all methods, and nobody writes to the file. -/
def ScanFile.Steady (configs : List Config) (f : ScanFile) : Prop :=
  (∀ c ∈ configs, c.chnkMethod.maxSize ≤ f.src.windowSize) ∧
    f.stat.stSize.toNat = f.src.file.length

structure Backup.Sound (configs : List Config) (b : Backup) : Prop where
  files : ∀ f ∈ b.files, f.Steady configs
  stale : b.stale < 2 ^ 63

/-- A method of the command line with 48-bit hashes. -/
structure Config.Usable (c : Config) : Prop where
  hash : ∀ ch, (c.hashMethod ch).length = 6
  size : c.chnkMethod.maxSize < 2 ^ 31

section Scan

variable {configs : List Config} {i : ℕ} {c : Config}

theorem scanEntry_eq (hvalid : ∀ c ∈ configs, c.chnkMethod.Valid) (hget : configs[i]? = some c)
    {f : ScanFile} (hf : f.Steady configs) :
    scanEntry configs i f = some (f.entry c) := by
  by_cases hlnk : isLnk f.stat.stMode = true
  · have hadded : (configs.map fun _ => ([] : List ChunkInfo))[i]? = some [] := by
      rw [List.getElem?_map, hget]
      rfl
    simp only [scanEntry, scanFile, if_pos hlnk, hadded, Option.bind_eq_bind, Option.bind_some,
      ScanFile.entry, ScanFile.chunks, List.map_nil]
  · obtain ⟨cutter, hcutter⟩ := exists_served f.src configs
      fun c hc => ⟨hvalid c hc, hf.1 c hc⟩
    obtain ⟨s, hrun, hdedups⟩ := processFile_eq configs fun c hc => (hcutter c hc).1
    have hadded : (s.dedups.map Dedup.added)[i]?
        = some ((chunksOf c.chnkMethod f.src.file).map c.info) := by
      rw [hdedups, List.map_map, List.getElem?_map, hget, Option.map_some, Function.comp_apply,
        (hcutter c (List.mem_of_getElem? hget)).2]
    simp only [scanEntry, scanFile, if_neg hlnk, ScanFile.turns, hrun, Option.map_some, hadded,
      Option.bind_eq_bind, Option.bind_some, ScanFile.entry, ScanFile.chunks]

theorem length_chunksOf_le {m : ChnkMethod} (hvalid : m.Valid) (file : List Byte) :
    (chunksOf m file).length ≤ file.length := by
  obtain ⟨C, hcuts, -⟩ := m.exists_cutter hvalid
  rw [chunksOf_eq hcuts]
  exact C.length_chunks_le m.tails file

theorem length_le_of_mem_chunks {m : ChnkMethod} (hvalid : m.Valid) {file ch : List Byte}
    (hch : ch ∈ chunksOf m file) : ch.length ≤ m.maxSize := by
  obtain ⟨C, hcuts, hmax, hsize⟩ := m.exists_cutter hvalid
  rw [chunksOf_eq hcuts] at hch
  have hcases := C.forall_mem_chunks m.tails (p := fun c => c.length ≤ m.maxSize) (l := file) (by
    intro l n hcut
    rw [C.length_take_of_cut hcut]
    exact (hsize l n hcut).2) ch hch
  rcases hcases with hle | ⟨hnone, -⟩
  · exact hle
  · exact Nat.le_of_lt (Nat.lt_of_not_le fun hfull => C.enough (hmax ▸ hfull) hnone)

theorem length_lt_of_mem_chunks (hvalid : c.chnkMethod.Valid) (huse : c.Usable) {f : ScanFile}
    {ch : List Byte} (hch : ch ∈ f.chunks c) : ch.length < 2 ^ 31 := by
  unfold ScanFile.chunks at hch
  split at hch
  next => exact absurd hch List.not_mem_nil
  next => exact Nat.lt_of_le_of_lt (length_le_of_mem_chunks hvalid hch) huse.size

/-- The sizes of a file of equal chunks follow from its size. -/
theorem fixed_recorded {fc : FixedChnkParams} (hpos : 0 < fc.csize) (file : List Byte) :
    ((chunksOf (.fixed fc) file).length - 1) * fc.csize ≤ file.length ∧
      ∀ k ch, (chunksOf (.fixed fc) file)[k]? = some ch → ch.length =
        if k + 1 = (chunksOf (.fixed fc) file).length
        then min fc.csize (file.length - ((chunksOf (.fixed fc) file).length - 1) * fc.csize)
        else fc.csize := by
  rw [chunksOf_eq (ChnkMethod.cutsLike_fixed fc hpos)]
  apply Cutter.chunks_same_size
  · intro l k hcut
    have := Cutter.ofHits_size hcut
    omega
  · intro l hnone
    exact Nat.lt_of_not_le fun hfull => Cutter.enough _ hfull hnone

theorem readable_scan (hvalid : c.chnkMethod.Valid) (huse : c.Usable) {f : ScanFile}
    (hsize : f.stat.stSize.toNat = f.src.file.length) :
    Readable c.chnkingMethod 48 (f.entry c) := by
  have hlt := f.stat.stSize.toNat_lt
  refine ⟨?_, ?_, ?_⟩
  · intro ci hci
    obtain ⟨ch, -, rfl⟩ := List.mem_map.mp hci
    exact huse.hash ch
  · obtain ⟨m, hash, comp⟩ := c
    cases m with
    | var vc =>
      intro ci hci
      obtain ⟨ch, hch, rfl⟩ := List.mem_map.mp hci
      have := length_lt_of_mem_chunks hvalid huse hch
      show ch.length < 2 ^ 32
      omega
    | fixed fc =>
      have hcsize : (UInt32.ofNat fc.csize).toNat = fc.csize := by
        have hmax : fc.csize < 2 ^ 31 := huse.size
        exact UInt32.toNat_ofNat_of_lt' (Nat.lt_trans hmax (by decide))
      simp only [Config.chnkingMethod, ScanFile.entry, Entry.Recorded, hcsize, List.length_map,
        List.getElem?_map, hsize]
      by_cases hlnk : isLnk f.stat.stMode = true
      · simp [ScanFile.chunks, hlnk]
      · obtain ⟨hfull, hsizes⟩ := fixed_recorded hvalid f.src.file
        simp only [ScanFile.chunks, if_neg hlnk]
        refine ⟨hfull, ?_⟩
        intro k ci hci
        obtain ⟨ch, hch, rfl⟩ := Option.map_eq_some_iff.mp hci
        exact hsizes k ch hch
  · rw [ScanFile.entry, List.length_map]
    unfold ScanFile.chunks
    split
    · decide
    · exact Nat.lt_of_le_of_lt (length_chunksOf_le hvalid _) (hsize ▸ hlt)

/-- The trace of a backup is the list of the chunks of its files. -/
theorem backup_trace (hvalid : ∀ c ∈ configs, c.chnkMethod.Valid) (hget : configs[i]? = some c)
    (huse : c.Usable) {b : Backup} (hb : b.Sound configs) :
    ∃ text, b.trace configs i = some text ∧ readChunks text = some (b.chunks c) := by
  have hv := hvalid c (List.mem_of_getElem? hget)
  have hentries : b.files.mapM (scanEntry configs i) = some (b.files.map (ScanFile.entry c)) :=
    mapM_eq_some_map fun f hf => scanEntry_eq hvalid hget (hb.files f hf)
  have hreadable : ∀ e ∈ b.files.map (ScanFile.entry c), Readable c.chnkingMethod 48 e := by
    intro e he
    obtain ⟨f, hf, rfl⟩ := List.mem_map.mp he
    exact readable_scan hv huse (hb.files f hf).2
  have hsize : ∀ e ∈ b.files.map (ScanFile.entry c), ∀ ci ∈ e.chunks, ci.size < 2 ^ 31 := by
    intro e he ci hci
    obtain ⟨f, -, rfl⟩ := List.mem_map.mp he
    obtain ⟨ch, hch, rfl⟩ := List.mem_map.mp hci
    exact length_lt_of_mem_chunks hv huse hch
  obtain ⟨text, hstat, hread⟩ :=
    hf_stat_trace c.chnkingMethod _ hreadable hsize b.junk b.junk' b.stale hb.stale
  refine ⟨text, ?_, ?_⟩
  · simp only [Backup.trace, hget, hentries, hstat, Option.bind_eq_bind, Option.bind_some]
  · rw [hread, Backup.chunks, List.flatMap_map, List.map_flatMap, List.map_flatMap]
    simp only [ScanFile.entry, List.map_map]
    rfl

theorem storeBackup_traces (P : Ddfs.Params) (hvalid : ∀ c ∈ configs, c.chnkMethod.Valid)
    (hget : configs[i]? = some c) (huse : c.Usable) (backups : List Backup)
    (hsound : ∀ b ∈ backups, b.Sound configs) (s : Ddfs.State P.size) :
    backups.foldlM (storeBackup P configs i) s
      = ((backups.map (Backup.chunks c)).foldlM (Ddfs.ddfs P) s).toOption := by
  induction backups generalizing s with
  | nil => rfl
  | cons b backups ih =>
    obtain ⟨text, htrace, hread⟩ := backup_trace hvalid hget huse (hsound b List.mem_cons_self)
    have hround : storeBackup P configs i s b = (Ddfs.ddfs P s (b.chunks c)).toOption := by
      simp only [storeBackup, htrace, hread, Option.bind_eq_bind, Option.bind_some]
    rw [List.foldlM_cons, List.map_cons, List.foldlM_cons, hround]
    cases Ddfs.ddfs P s (b.chunks c) with
    | error e => rfl
    | ok s1 => exact ih (fun b' hb' => hsound b' (List.mem_cons_of_mem _ hb')) s1

end Scan

/-- Backups from the files to the index: every trace lists the chunks of all files of its
backup, and after all of them `ddfs` has made one entry for each different fingerprint. -/
theorem backups_deduplicated (P : Ddfs.Params) (configs : List Config) (i : ℕ) (c : Config)
    (hget : configs[i]? = some c) (hvalid : ∀ c ∈ configs, c.chnkMethod.Valid) (huse : c.Usable)
    (backups : List Backup) (hsound : ∀ b ∈ backups, b.Sound configs)
    (hdistinct : Ddfs.Unambiguous ((backups.flatMap (Backup.chunks c)).map Chunk.hash)) :
    (∀ b ∈ backups, ∃ text, b.trace configs i = some text ∧
        readChunks text = some (b.chunks c) ∧ readFps text = (b.chunks c).map Chunk.hash) ∧
      ∃ s, backups.foldlM (storeBackup P configs i) (Ddfs.State.initial P.size) = some s ∧
        s.updates = ((backups.flatMap (Backup.chunks c)).map Chunk.hash).toFinset.card ∧
        ∀ x, x ∈ s.index.keys ↔ x ∈ (backups.flatMap (Backup.chunks c)).map Chunk.hash := by
  refine ⟨?_, ?_⟩
  · intro b hb
    obtain ⟨text, htrace, hread⟩ := backup_trace hvalid hget huse (hsound b hb)
    exact ⟨text, htrace, hread, readFps_of_readChunks text _ hread⟩
  · rw [List.flatMap_def] at hdistinct ⊢
    obtain ⟨s, hrun, hr, href⟩ := Ddfs.refines_runs P _ hdistinct
    obtain ⟨hupdates, hkeys⟩ := href.updates_eq_card hr fun _ => Iff.rfl
    refine ⟨s, ?_, hupdates, hkeys⟩
    rw [storeBackup_traces P hvalid hget huse backups hsound, ← Ddfs.ddfsRuns, hrun]
    rfl

/-- The first six bytes in the place of a hash. -/
def firstBytes : List Config :=
  smallConfigs.map fun c => { c with hashMethod := resize 6 }

def sampleBackup (files : List ScanFile) : Backup := ⟨files, sampleHeader, sampleHeader, 0⟩

/-- The same file twice, the second time with a link to it. -/
def sampleBackups : List Backup :=
  [sampleBackup [⟨samplePath, sampleStat 15 0o100644, samplePath, smallSource⟩],
    sampleBackup [⟨samplePath, sampleStat 15 0o120777, samplePath, smallSource⟩,
      ⟨samplePath, sampleStat 15 0o100644, samplePath, smallSource⟩]]

theorem backups_deduplicated_two : ∃ s,
    sampleBackups.foldlM (storeBackup Ddfs.smallParams firstBytes 1)
      (Ddfs.State.initial Ddfs.smallParams.size) = some s ∧ s.updates = 4 := by
  have hvalid : ∀ c ∈ firstBytes, c.chnkMethod.Valid := by
    intro c hc
    rcases List.mem_pair.mp hc with rfl | rfl
    · exact show 0 < 4 by decide
    · exact VarChnkParams.smallParams_valid
  have hsteady : ∀ f : ScanFile, f.src = smallSource → f.stat.stSize = 15 →
      f.Steady firstBytes := by
    intro f hsrc hsize
    refine ⟨?_, by rw [hsrc, hsize]; decide⟩
    intro c hc
    rw [hsrc]
    rcases List.mem_pair.mp hc with rfl | rfl
    · decide
    · decide
  have hsound : ∀ b ∈ sampleBackups, b.Sound firstBytes := by
    intro b hb
    rcases List.mem_pair.mp hb with rfl | rfl
    · refine ⟨fun f hf => ?_, by decide⟩
      obtain rfl := List.mem_singleton.mp hf
      exact hsteady _ rfl rfl
    · refine ⟨fun f hf => ?_, by decide⟩
      rcases List.mem_pair.mp hf with rfl | rfl
      · exact hsteady _ rfl rfl
      · exact hsteady _ rfl rfl
  obtain ⟨-, s, hrun, hupdates, -⟩ := backups_deduplicated Ddfs.smallParams firstBytes 1
    ⟨.var VarChnkParams.smallParams, resize 6, fun _ => 10⟩ rfl hvalid
    ⟨fun ch => resize_length 6 ch, by decide⟩ sampleBackups hsound (by decide +kernel)
  exact ⟨s, hrun, hupdates.trans (by decide +kernel)⟩

end FreqAnalysis.FsHasher
