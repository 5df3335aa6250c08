import FreqAnalysis.FsHasher.HashFile

/-!
# Reading hash files (libhashfile.c)

`hashfile_next_file` skips the chunk records that were not read and reads the next header;
`hashfile_next_chunk` reads one record. The size of a chunk has four bytes in the file and
eight in memory, of which `read` sets the lower four: the others are what `malloc` left in
the handle. A file of chunks of one size has no sizes, they are computed from the size of
the file. Whatever is written is read back, however much of each file is read.
-/

namespace FreqAnalysis.FsHasher
open Base

structure Reader where
  file : ByteFile
  header : Header
  currentFile : FileHeader
  numFilesProcessed : ℕ
  numHashesProcessedCurrentFile : ℕ
  currentSize : ℕ

/-- `junk` and `stale` are what is in the memory of the handle. -/
def hashfileOpen (hf : HashFile) (junk : FileHeader) (stale : ℕ) : Reader :=
  ⟨⟨hf.body, 0⟩, hf.header, { junk with chunks := 0 }, 0, 0, stale⟩

/-- `convert_to_abstract_file_header`. -/
def FileHeader.ofWords (ws : List ℕ) : FileHeader where
  fileSize := UInt64.ofNat (ws.getD 0 0)
  blocks := UInt64.ofNat (ws.getD 1 0)
  uid := UInt32.ofNat (ws.getD 2 0)
  gid := UInt32.ofNat (ws.getD 3 0)
  perm := UInt64.ofNat (ws.getD 4 0)
  atime := UInt64.ofNat (ws.getD 5 0)
  mtime := UInt64.ofNat (ws.getD 6 0)
  ctime := UInt64.ofNat (ws.getD 7 0)
  hardlinks := UInt64.ofNat (ws.getD 8 0)
  deviceid := UInt64.ofNat (ws.getD 9 0)
  inodenum := UInt64.ofNat (ws.getD 10 0)
  chunks := ws.getD 11 0
  path := []
  targetPath := []

/-- A longer path would not fit into the buffer. -/
def readPath (file : ByteFile) (pathlen : ℕ) : Option (List Byte × ByteFile) :=
  if pathlen < maxPathSize then file.readExact pathlen else none

def readFileHeader (file : ByteFile) : Option (FileHeader × ByteFile) := do
  let (bytes, file) ← file.readExact FileHeader.widths.sum
  let ws := unpackWords FileHeader.widths bytes
  let (path, file) ← readPath file (ws.getD 12 0)
  if isLnk (FileHeader.ofWords ws).perm then
    let (targetPath, file) ← readPath file (ws.getD 13 0)
    some ({ FileHeader.ofWords ws with path := path, targetPath := targetPath }, file)
  else some ({ FileHeader.ofWords ws with path := path }, file)

inductive NextFile where
  | eof
  | failed
  | file (r : Reader)

namespace Reader

def chunkInfoBlockSize (hd : Header) : ℕ :=
  hd.hashSize / 8 + (match hd.chnkMethod with
    | .var => 4
    | .fixed _ => 0) + 1

def skipOverCurrentFileHashes (r : Reader) : ByteFile :=
  r.file.seek (r.file.pos +
    (r.currentFile.chunks - r.numHashesProcessedCurrentFile) * chunkInfoBlockSize r.header)

def enter (r : Reader) (h : FileHeader) (file : ByteFile) : Reader :=
  { r with
    file := file
    currentFile := h
    numFilesProcessed := r.numFilesProcessed + 1
    numHashesProcessedCurrentFile := 0 }

def hashfileNextFile (r : Reader) : NextFile :=
  if r.numFilesProcessed = r.header.files then .eof
  else
    match readFileHeader r.skipOverCurrentFileHashes with
    | none => .failed
    | some (h, file) => .file (r.enter h file)

/-- The last chunk of a file of equal chunks, in 64-bit words. -/
def lastSize (fileSize : UInt64) (chunks : ℕ) (n : UInt32) : ℕ :=
  let size := fileSize - UInt64.ofNat (chunks - 1) * n.toUInt64
  (if size > n.toUInt64 then n.toUInt64 else size).toNat

def nextSize (r : Reader) : Option (ℕ × ByteFile) :=
  match r.header.chnkMethod with
  | .var => (r.file.readExact 4).map fun p =>
      (r.currentSize / 2 ^ 32 * 2 ^ 32 + leVal p.1, p.2)
  | .fixed n =>
    let last := r.currentFile.chunks - 1 = r.numHashesProcessedCurrentFile
    some (if last then lastSize r.currentFile.fileSize r.currentFile.chunks n else n.toNat, r.file)

def advance (r : Reader) (size : ℕ) (file : ByteFile) : Reader :=
  { r with
    file := file
    currentSize := size
    numHashesProcessedCurrentFile := r.numHashesProcessedCurrentFile + 1 }

def hashfileNextChunk (r : Reader) : Option (ChunkInfo × Reader) :=
  if r.currentFile.chunks = r.numHashesProcessedCurrentFile then none
  else do
    let (size, file) ← r.nextSize
    let (hash, file) ← file.readExact (r.header.hashSize / 8)
    let (cratio, file) ← file.readExact 1
    some (⟨size, hash, cratio.getD 0 0⟩, r.advance size file)

/-- At most `n` calls of `hashfile_next_chunk`. -/
def takeChunks : ℕ → Reader → List ChunkInfo × Reader
  | 0, r => ([], r)
  | n + 1, r =>
    match r.hashfileNextChunk with
    | none => ([], r)
    | some (ci, r') => (ci :: (takeChunks n r').1, (takeChunks n r').2)

/-- The next files, with at most so many chunks of each. -/
def takeFiles : List ℕ → Reader → Option (List (FileHeader × List ChunkInfo) × Reader)
  | [], r => some ([], r)
  | n :: plan, r =>
    match r.hashfileNextFile with
    | .file r' => (takeFiles plan (r'.takeChunks n).2).map fun p =>
        ((r'.currentFile, (r'.takeChunks n).1) :: p.1, p.2)
    | _ => none

end Reader

/-! ### What can be read back -/

/-- Sizes below 2^32, or the sizes of a file that was cut into equal chunks. -/
def Entry.Recorded (e : Entry) : ChnkingMethod → Prop
  | .var => ∀ ci ∈ e.chunks, ci.size < 2 ^ 32
  | .fixed n => (e.chunks.length - 1) * n.toNat ≤ e.stat.stSize.toNat ∧
      ∀ k ci, e.chunks[k]? = some ci → ci.size =
        if k + 1 = e.chunks.length
        then min n.toNat (e.stat.stSize.toNat - (e.chunks.length - 1) * n.toNat) else n.toNat

structure Readable (method : ChnkingMethod) (hashSize : ℕ) (e : Entry) : Prop where
  hashes : HashesFit hashSize e.chunks
  sizes : e.Recorded method
  count : e.chunks.length < 2 ^ 64

/-- The chunk as the reader reports it, with `high` in the upper half of the size. -/
def report (high : ℕ) (ci : ChunkInfo) : ChnkingMethod → ChunkInfo
  | .var => { ci with size := high * 2 ^ 32 + ci.size }
  | .fixed _ => ci

theorem length_record {method : ChnkingMethod} {hashSize : ℕ} {ci : ChunkInfo}
    (hfit : ci.hash.length = hashSize / 8) (hd : Header) (hm : hd.chnkMethod = method)
    (hs : hd.hashSize = hashSize) :
    (Entry.record method ci).length = Reader.chunkInfoBlockSize hd := by
  subst hm
  rw [Reader.chunkInfoBlockSize, hs, ← hfit]
  cases hd.chnkMethod with
  | var =>
    simp only [Entry.record, List.length_append, leBytes_length, List.length_singleton]
    omega
  | fixed n =>
    simp only [Entry.record, List.length_append, List.length_nil, List.length_singleton]
    omega

theorem length_records {method : ChnkingMethod} {hashSize : ℕ} {cs : List ChunkInfo}
    (hfit : HashesFit hashSize cs) (hd : Header) (hm : hd.chnkMethod = method)
    (hs : hd.hashSize = hashSize) :
    (cs.flatMap (Entry.record method)).length = cs.length * Reader.chunkInfoBlockSize hd := by
  induction cs with
  | nil => simp
  | cons ci cs ih =>
    rw [List.flatMap_cons, List.length_append, List.length_cons, Nat.succ_mul, Nat.add_comm,
      ih fun c hc => hfit c (List.mem_cons_of_mem _ hc),
      length_record (hfit ci List.mem_cons_self) hd hm hs]

/-! ### Headers -/

theorem lt_of_mem_words {h : FileHeader} (hchunks : h.chunks < 2 ^ 64)
    (hpath : h.path.length < maxPathSize) (htarget : h.targetPath.length < maxPathSize) :
    ∀ w ∈ h.words, w.2 < 256 ^ w.1 := by
  have hbig : (256 : ℕ) ^ 8 = 2 ^ 64 := by norm_num
  have hsmall : (256 : ℕ) ^ 4 = 2 ^ 32 := by norm_num
  have hmax : maxPathSize < 2 ^ 32 := by decide
  intro w hw
  simp only [FileHeader.words, List.mem_cons, List.not_mem_nil, or_false] at hw
  rcases hw with rfl | rfl | rfl | rfl | rfl | rfl | rfl | rfl | rfl | rfl | rfl | rfl | rfl | rfl
  all_goals simp only [hbig, hsmall]
  all_goals first
    | exact UInt64.toNat_lt _
    | exact UInt32.toNat_lt _
    | omega

theorem ofWords_words (h : FileHeader) :
    FileHeader.ofWords (h.words.map Prod.snd) = { h with path := [], targetPath := [] } := by
  simp [FileHeader.ofWords, FileHeader.words]

theorem readFileHeader_image {file : ByteFile} {h : FileHeader} {more : List Byte}
    (hrest : file.rest = h.image ++ more) (hchunks : h.chunks < 2 ^ 64)
    (hpath : h.path.length < maxPathSize) (htarget : h.targetPath.length < maxPathSize)
    (hlink : isLnk h.perm = false → h.targetPath = []) :
    ∃ file', readFileHeader file = some (h, file') ∧ file'.rest = more := by
  rw [FileHeader.image, List.append_assoc, List.append_assoc] at hrest
  obtain ⟨f1, hread1, hrest1⟩ := ByteFile.readExact_of_rest hrest h.length_packWords_words
  obtain ⟨f2, hread2, hrest2⟩ := ByteFile.readExact_of_rest hrest1 rfl
  have hwords : unpackWords FileHeader.widths (packWords h.words) = h.words.map Prod.snd := by
    have := unpackWords_packWords h.words (lt_of_mem_words hchunks hpath htarget) []
    rwa [List.append_nil, FileHeader.map_fst_words] at this
  have hpathlen : (h.words.map Prod.snd).getD 12 0 = h.path.length := rfl
  have htargetlen : (h.words.map Prod.snd).getD 13 0 = h.targetPath.length := rfl
  cases hl : isLnk h.perm with
  | true =>
    obtain ⟨f3, hread3, hrest3⟩ := ByteFile.readExact_of_rest hrest2 rfl
    refine ⟨f3, ?_, hrest3⟩
    simp only [readFileHeader, hread1, Option.bind_eq_bind, Option.bind_some, hwords, hpathlen,
      readPath, if_pos hpath, hread2, ofWords_words, hl, if_true, htargetlen, if_pos htarget,
      hread3]
  | false =>
    have hnil := hlink hl
    refine ⟨f2, ?_, by rw [hrest2, hnil, List.nil_append]⟩
    simp only [readFileHeader, hread1, Option.bind_eq_bind, Option.bind_some, hwords, hpathlen,
      readPath, if_pos hpath, hread2, ofWords_words, hl, Bool.false_eq_true, if_false]
    rw [← hnil]

theorem readFileHeader_entry {file : ByteFile} {e : Entry} {more : List Byte}
    (hrest : file.rest = e.header.image ++ more) (hcount : e.chunks.length < 2 ^ 64) :
    ∃ file', readFileHeader file = some (e.header, file') ∧ file'.rest = more := by
  refine readFileHeader_image hrest hcount e.path.fits ?_ fun hno => ?_
  · show (if isLnk e.stat.stMode then e.target.bytes else []).length < maxPathSize
    split
    · exact e.target.fits
    · decide
  · have hmode : ¬ isLnk e.stat.stMode = true := by
      rw [Bool.not_eq_true]
      exact hno
    exact if_neg hmode

/-! ### Reading chunks and files -/

section Reading

variable {method : ChnkingMethod} {hashSize high : ℕ}

/-- The reader has read `k` chunks of `e`; `es` are the files after it. -/
structure InFile (method : ChnkingMethod) (hashSize high : ℕ) (r : Reader) (e : Entry) (k : ℕ)
    (es : List Entry) : Prop where
  chnkMethod : r.header.chnkMethod = method
  size : r.header.hashSize = hashSize
  files : r.header.files = r.numFilesProcessed + es.length
  rest : r.file.rest
    = (e.chunks.drop k).flatMap (Entry.record method) ++ es.flatMap (Entry.image method)
  current : r.currentFile = e.header
  hashes : r.numHashesProcessedCurrentFile = k
  le : k ≤ e.chunks.length
  stale : method = .var → r.currentSize / 2 ^ 32 = high

/-- The sizes that the file does not have. -/
theorem lastSize_eq {fileSize : UInt64} {n : UInt32} {chunks : ℕ}
    (hle : (chunks - 1) * n.toNat ≤ fileSize.toNat) (hchunks : chunks < 2 ^ 64) :
    Reader.lastSize fileSize chunks n
      = min n.toNat (fileSize.toNat - (chunks - 1) * n.toNat) := by
  have hfile := fileSize.toNat_lt
  have hmul : (UInt64.ofNat (chunks - 1) * n.toUInt64).toNat = (chunks - 1) * n.toNat := by
    have hcount : chunks - 1 < UInt64.size := Nat.lt_of_le_of_lt (Nat.sub_le _ _) hchunks
    rw [UInt64.toNat_mul, UInt64.toNat_ofNat_of_lt' hcount, UInt32.toNat_toUInt64]
    exact Nat.mod_eq_of_lt (Nat.lt_of_le_of_lt hle hfile)
  have hsub : (fileSize - UInt64.ofNat (chunks - 1) * n.toUInt64).toNat
      = fileSize.toNat - (chunks - 1) * n.toNat := by
    rw [UInt64.toNat_sub_of_le _ _ (UInt64.le_iff_toNat_le.mpr (hmul ▸ hle)), hmul]
  simp only [Reader.lastSize]
  split
  next hgt =>
    have hlt : n.toNat < fileSize.toNat - (chunks - 1) * n.toNat := by
      rw [← hsub, ← UInt32.toNat_toUInt64]
      exact UInt64.lt_iff_toNat_lt.mp hgt
    rw [UInt32.toNat_toUInt64, Nat.min_eq_left (by omega)]
  next hle' =>
    have hge : fileSize.toNat - (chunks - 1) * n.toNat ≤ n.toNat := by
      rw [← hsub, ← UInt32.toNat_toUInt64]
      exact UInt64.le_iff_toNat_le.mp (UInt64.not_lt.mp hle')
    rw [hsub, Nat.min_eq_right hge]

theorem InFile.nextSize {r : Reader} {e : Entry} {k : ℕ} {es : List Entry} {ci : ChunkInfo}
    (h : InFile method hashSize high r e k es) (hr : Readable method hashSize e)
    (hget : e.chunks[k]? = some ci) {more : List Byte}
    (hrest : r.file.rest = Entry.record method ci ++ more) :
    ∃ file, r.nextSize = some ((report high ci method).size, file) ∧
      file.rest = ci.hash ++ ([ci.cratio] ++ more) ∧
      (method = .var → (report high ci method).size / 2 ^ 32 = high) := by
  cases method with
  | var =>
    have hsize : ci.size < 2 ^ 32 := hr.sizes ci (List.mem_of_getElem? hget)
    rw [Entry.record, List.append_assoc, List.append_assoc] at hrest
    obtain ⟨file, hread, hfile⟩ := ByteFile.readExact_of_rest hrest (leBytes_length 4 ci.size)
    have hval : leVal (leBytes 4 ci.size) = ci.size := by
      rw [leVal_leBytes, Nat.mod_eq_of_lt (by norm_num; omega)]
    refine ⟨file, ?_, hfile, fun _ => ?_⟩
    · simp only [Reader.nextSize, h.chnkMethod, hread, Option.map_some, hval, h.stale rfl, report]
    · simp only [report]
      omega
  | fixed n =>
    obtain ⟨hfull, hsizes⟩ := hr.sizes
    have hsize := hsizes k ci hget
    have hlt : k < e.chunks.length := (List.getElem?_eq_some_iff.mp hget).1
    have hlast : e.chunks.length - 1 = k ↔ k + 1 = e.chunks.length := by omega
    refine ⟨r.file, ?_, ?_, ?_⟩
    · have hchunks : e.header.chunks = e.chunks.length := rfl
      have hfileSize : e.header.fileSize = e.stat.stSize := rfl
      simp only [Reader.nextSize, h.chnkMethod, h.current, h.hashes, hchunks, hfileSize, report,
        hlast, lastSize_eq hfull hr.count, hsize]
    · rw [hrest, Entry.record, List.nil_append, List.append_assoc]
    · intro hvar
      cases hvar

/-- A call of `hashfile_next_chunk` inside a file. -/
theorem InFile.nextChunk {r : Reader} {e : Entry} {k : ℕ} {es : List Entry} {ci : ChunkInfo}
    (h : InFile method hashSize high r e k es) (hr : Readable method hashSize e)
    (hget : e.chunks[k]? = some ci) :
    ∃ r', r.hashfileNextChunk = some (report high ci method, r') ∧
      InFile method hashSize high r' e (k + 1) es := by
  obtain ⟨hlt, hci⟩ := List.getElem?_eq_some_iff.mp hget
  have hdrop : e.chunks.drop k = ci :: e.chunks.drop (k + 1) := by
    rw [List.drop_eq_getElem_cons hlt, hci]
  have hrest := h.rest
  rw [hdrop, List.flatMap_cons, List.append_assoc] at hrest
  have hchunks : r.currentFile.chunks = e.chunks.length := by
    rw [h.current]
    rfl
  obtain ⟨f1, hread1, hrest1, hhigh⟩ := h.nextSize hr hget hrest
  have hfit : ci.hash.length = r.header.hashSize / 8 := by
    rw [h.size]
    exact hr.hashes ci (List.mem_of_getElem? hget)
  obtain ⟨f2, hread2, hrest2⟩ := ByteFile.readExact_of_rest hrest1 hfit
  obtain ⟨f3, hread3, hrest3⟩ := ByteFile.readExact_of_rest hrest2 (List.length_singleton)
  refine ⟨r.advance (report high ci method).size f3, ?_,
    ⟨h.chnkMethod, h.size, h.files, hrest3, h.current, ?_, hlt, hhigh⟩⟩
  · rw [Reader.hashfileNextChunk, if_neg (by rw [hchunks, h.hashes]; omega)]
    simp only [hread1, hread2, hread3, Option.bind_eq_bind, Option.bind_some]
    cases method with
    | var => rfl
    | fixed n => rfl
  · show r.numHashesProcessedCurrentFile + 1 = _
    rw [h.hashes]

theorem InFile.takeChunks {r : Reader} {e : Entry} {k : ℕ} {es : List Entry} (n : ℕ)
    (h : InFile method hashSize high r e k es) (hr : Readable method hashSize e) :
    (r.takeChunks n).1 = ((e.chunks.drop k).take n).map (report high · method) ∧
      ∃ k', InFile method hashSize high (r.takeChunks n).2 e k' es := by
  induction n generalizing r k with
  | zero => exact ⟨by simp [Reader.takeChunks], k, h⟩
  | succ n ih =>
    cases hget : e.chunks[k]? with
    | none =>
      have hlen : e.chunks.length ≤ k := List.getElem?_eq_none_iff.mp hget
      have hk : k = e.chunks.length := Nat.le_antisymm h.le hlen
      have hnone : r.hashfileNextChunk = none := by
        rw [Reader.hashfileNextChunk, if_pos]
        rw [h.current, h.hashes, hk]
        rfl
      simp only [Reader.takeChunks, hnone]
      refine ⟨?_, k, h⟩
      rw [List.drop_eq_nil_of_le hlen, List.take_nil, List.map_nil]
    | some ci =>
      obtain ⟨r', hnext, h'⟩ := h.nextChunk hr hget
      obtain ⟨hlt, hci⟩ := List.getElem?_eq_some_iff.mp hget
      obtain ⟨hlist, hin⟩ := ih h'
      simp only [Reader.takeChunks, hnext]
      refine ⟨?_, hin⟩
      rw [hlist, List.drop_eq_getElem_cons hlt, hci, List.take_succ_cons, List.map_cons]

/-- However many chunks were read, the next header is found. -/
theorem InFile.skip {r : Reader} {e : Entry} {k : ℕ} {es : List Entry}
    (h : InFile method hashSize high r e k es) (hr : Readable method hashSize e) :
    r.skipOverCurrentFileHashes.rest = es.flatMap (Entry.image method) := by
  have hchunks : r.currentFile.chunks = e.chunks.length := by
    rw [h.current]
    rfl
  have hfit : HashesFit hashSize (e.chunks.drop k) :=
    fun ci hci => hr.hashes ci (List.mem_of_mem_drop hci)
  have hlen := length_records hfit r.header h.chnkMethod h.size
  rw [List.length_drop, ← h.hashes, ← hchunks] at hlen
  rw [Reader.skipOverCurrentFileHashes, ByteFile.rest_seek_add, h.rest, ← hlen, h.hashes,
    List.drop_left' rfl]

theorem nextFile_cons {r : Reader} {e : Entry} {es : List Entry} (hm : r.header.chnkMethod = method)
    (hs : r.header.hashSize = hashSize) (hfiles : r.header.files = r.numFilesProcessed + (e :: es).length)
    (hskip : r.skipOverCurrentFileHashes.rest = (e :: es).flatMap (Entry.image method))
    (hstale : method = .var → r.currentSize / 2 ^ 32 = high) (hr : Readable method hashSize e) :
    ∃ r', r.hashfileNextFile = .file r' ∧ InFile method hashSize high r' e 0 es := by
  rw [List.flatMap_cons, Entry.image, List.append_assoc] at hskip
  obtain ⟨file, hread, hrest⟩ := readFileHeader_entry hskip hr.count
  rw [List.length_cons] at hfiles
  refine ⟨r.enter e.header file, ?_, ⟨hm, hs, ?_, hrest, rfl, rfl, Nat.zero_le _, hstale⟩⟩
  · rw [Reader.hashfileNextFile, if_neg (by omega), hread]
  · show r.header.files = r.numFilesProcessed + 1 + es.length
    omega

/-- Reading on from a state between or inside files. -/
theorem takeFiles_eq {r : Reader} {es : List Entry} (plan : List ℕ)
    (hplan : plan.length = es.length) (hm : r.header.chnkMethod = method)
    (hs : r.header.hashSize = hashSize) (hfiles : r.header.files = r.numFilesProcessed + es.length)
    (hskip : r.skipOverCurrentFileHashes.rest = es.flatMap (Entry.image method))
    (hstale : method = .var → r.currentSize / 2 ^ 32 = high)
    (hr : ∀ e ∈ es, Readable method hashSize e) :
    ∃ r', r.takeFiles plan = some (List.zipWith
        (fun e n => (e.header, (e.chunks.take n).map (report high · method))) es plan, r') ∧
      r'.hashfileNextFile = .eof := by
  induction es generalizing r plan with
  | nil =>
    obtain rfl := List.length_eq_zero_iff.mp hplan
    refine ⟨r, rfl, ?_⟩
    rw [Reader.hashfileNextFile, if_pos (by simpa using hfiles.symm)]
  | cons e es ih =>
    obtain ⟨n, plan, rfl⟩ := List.exists_cons_of_length_eq_add_one hplan
    have hre := hr e List.mem_cons_self
    obtain ⟨r1, hnext, h1⟩ := nextFile_cons hm hs hfiles hskip hstale hre
    obtain ⟨hlist, k, h2⟩ := h1.takeChunks n hre
    obtain ⟨r', htake, hend⟩ := ih plan (Nat.succ.inj hplan) h2.chnkMethod h2.size h2.files
      (h2.skip hre) h2.stale fun e' he' => hr e' (List.mem_cons_of_mem _ he')
    refine ⟨r', ?_, hend⟩
    simp only [Reader.takeFiles, hnext, htake, Option.map_some, hlist, h1.current,
      List.drop_zero, List.zipWith_cons_cons]

end Reading

theorem hashfileOpen_skip (method : ChnkingMethod) (hashSize : ℕ) (junk : FileHeader) (stale : ℕ)
    (entries : List Entry) :
    (hashfileOpen ⟨⟨method, hashSize, entries.length, (entries.flatMap Entry.chunks).length,
        ((entries.flatMap Entry.chunks).map ChunkInfo.size).sum⟩,
      entries.flatMap (Entry.image method)⟩ junk stale).skipOverCurrentFileHashes.rest
      = entries.flatMap (Entry.image method) := by
  simp [Reader.skipOverCurrentFileHashes, hashfileOpen, ByteFile.rest, ByteFile.seek]

/-- What was written is read back: every file with its path and attributes, and of its
chunks as many as are asked for. The counters of the main header are right. -/
theorem hash_file_round_trip (method : ChnkingMethod) (hashSize : ℕ) (entries : List Entry)
    (hreadable : ∀ e ∈ entries, Readable method hashSize e) (junk junk' : FileHeader)
    (stale : ℕ) (plan : List ℕ) (hplan : plan.length = entries.length) :
    let hf := writeHashFile method hashSize junk entries
    (∃ r, (hashfileOpen hf junk' stale).takeFiles plan = some (List.zipWith
        (fun e n => (e.header, (e.chunks.take n).map (report (stale / 2 ^ 32) · method)))
        entries plan, r) ∧ r.hashfileNextFile = .eof) ∧
      hf.header.files = entries.length ∧
      hf.header.chunks = (entries.flatMap Entry.chunks).length ∧
      hf.header.bytes = ((entries.flatMap Entry.chunks).map ChunkInfo.size).sum := by
  intro hf
  have hhf : hf = _ := writeHashFile_eq method hashSize junk entries fun e he =>
    (hreadable e he).hashes
  rw [hhf]
  refine ⟨?_, rfl, rfl, rfl⟩
  exact takeFiles_eq plan hplan rfl rfl (Nat.zero_add _).symm
    (hashfileOpen_skip method hashSize junk' stale entries) (fun _ => rfl) hreadable

def samplePath : CPath := ⟨[97], by decide, by decide⟩

def sampleStat (size mode : UInt64) : Stat := ⟨size, 8, 1000, 100, mode, 1, 2, 3, 1, 5, 6⟩

def sampleHeader : FileHeader := .ofStat (sampleStat 0 0) samplePath samplePath

/-- A file of two chunks, and a link to it. -/
def sampleEntries : List Entry :=
  [⟨samplePath, sampleStat 7 0o100644, samplePath,
      [⟨4, [1, 2, 3, 4, 5, 6], 10⟩, ⟨3, [6, 5, 4, 3, 2, 1], 10⟩]⟩,
    ⟨samplePath, sampleStat 1 0o120777, samplePath, []⟩]

theorem sampleEntries_readable : ∀ e ∈ sampleEntries, Readable .var 48 e := by
  intro e he
  rcases List.mem_pair.mp he with rfl | rfl
  · exact ⟨by unfold HashesFit; decide, by unfold Entry.Recorded; decide, by decide⟩
  · exact ⟨by unfold HashesFit; decide, by unfold Entry.Recorded; decide, by decide⟩

/-- One chunk of the file is read, with 5 in the upper half of its size, then the link. -/
theorem hash_file_round_trip_two : ∃ r,
    (hashfileOpen (writeHashFile .var 48 sampleHeader sampleEntries) sampleHeader
      (5 * 2 ^ 32 + 1)).takeFiles [1, 3]
      = some ([({ FileHeader.ofStat (sampleStat 7 0o100644) samplePath samplePath with chunks := 2 },
            [⟨5 * 2 ^ 32 + 4, [1, 2, 3, 4, 5, 6], 10⟩]),
          (FileHeader.ofStat (sampleStat 1 0o120777) samplePath samplePath, [])], r) ∧
      r.hashfileNextFile = .eof :=
  (hash_file_round_trip .var 48 sampleEntries sampleEntries_readable sampleHeader sampleHeader
    (5 * 2 ^ 32 + 1) [1, 3] rfl).1

end FreqAnalysis.FsHasher
