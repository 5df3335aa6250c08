import FreqAnalysis.Base.ByteFile
import FreqAnalysis.FsHasher.Process

/-!
# Writing hash files (libhashfile.c)

A hash file holds, for every file of a scan, a packed header with its path and then one
record for each chunk. The number of chunks is known at the end only: `do_add_file` writes
the header with no chunks first and overwrites it when the next file, or the end, comes.
The main header at the start of the file is written and read as one structure; it is kept
apart here, and positions count from behind it. Of the seven versions of the format the
one that is written is modelled. Errors of `write`, `read` and `lseek` are left out.
-/

namespace FreqAnalysis.FsHasher
open Base

/-- `chnk_method` with the parameter that the reader uses. -/
inductive ChnkingMethod where
  | fixed (chunkSize : UInt32)
  | var

structure Header where
  chnkMethod : ChnkingMethod
  hashSize : ℕ
  files : ℕ
  chunks : ℕ
  bytes : ℕ

/-- The part of `struct stat` that is recorded. -/
structure Stat where
  stSize : UInt64
  stBlocks : UInt64
  stUid : UInt32
  stGid : UInt32
  stMode : UInt64
  stAtime : UInt64
  stMtime : UInt64
  stCtime : UInt64
  stNlink : UInt64
  stDev : UInt64
  stIno : UInt64

def maxPathSize : ℕ := 4096

/-- A C string that fits into a path buffer. -/
structure CPath where
  bytes : List Byte
  noNul : 0 ∉ bytes
  fits : bytes.length < maxPathSize

/-- `abstract_file_header`; the two path lengths are the lengths of the paths. -/
structure FileHeader where
  fileSize : UInt64
  blocks : UInt64
  uid : UInt32
  gid : UInt32
  perm : UInt64
  atime : UInt64
  mtime : UInt64
  ctime : UInt64
  hardlinks : UInt64
  deviceid : UInt64
  inodenum : UInt64
  chunks : ℕ
  path : List Byte
  targetPath : List Byte

def isLnk (mode : UInt64) : Bool := mode &&& 0o170000 = 0o120000

namespace FileHeader

/-- `file_header_v4`. -/
def words (h : FileHeader) : List (ℕ × ℕ) :=
  [(8, h.fileSize.toNat), (8, h.blocks.toNat), (4, h.uid.toNat), (4, h.gid.toNat),
    (8, h.perm.toNat), (8, h.atime.toNat), (8, h.mtime.toNat), (8, h.ctime.toNat),
    (8, h.hardlinks.toNat), (8, h.deviceid.toNat), (8, h.inodenum.toNat), (8, h.chunks),
    (4, h.path.length), (4, h.targetPath.length)]

def widths : List ℕ := [8, 8, 4, 4, 8, 8, 8, 8, 8, 8, 8, 8, 4, 4]

def ofStat (st : Stat) (path target : CPath) : FileHeader where
  fileSize := st.stSize
  blocks := st.stBlocks
  uid := st.stUid
  gid := st.stGid
  perm := st.stMode
  atime := st.stAtime
  mtime := st.stMtime
  ctime := st.stCtime
  hardlinks := st.stNlink
  deviceid := st.stDev
  inodenum := st.stIno
  chunks := 0
  path := path.bytes
  targetPath := if isLnk st.stMode then target.bytes else []

def image (h : FileHeader) : List Byte := packWords h.words ++ h.path ++ h.targetPath

theorem map_fst_words (h : FileHeader) : h.words.map Prod.fst = widths := rfl

theorem length_packWords_words (h : FileHeader) : (packWords h.words).length = widths.sum := by
  rw [length_packWords, map_fst_words]

end FileHeader

/-! ### The writer -/

structure Writer where
  file : ByteFile
  header : Header
  currentFile : FileHeader
  currentFileHeaderOffset : ℕ
  numFilesProcessed : ℕ
  numHashesProcessedCurrentFile : ℕ

structure HashFile where
  header : Header
  body : List Byte

/-- `current_file` has no value before the first file. -/
def hashfileOpen4write (method : ChnkingMethod) (hashSize : ℕ) (junk : FileHeader) : Writer :=
  ⟨.empty, ⟨method, hashSize, 0, 0, 0⟩, junk, 0, 0, 0⟩

namespace Writer

def finalHeader (w : Writer) : FileHeader :=
  { w.currentFile with chunks := w.numHashesProcessedCurrentFile }

/-- The first half of `do_add_file`: the header of the previous file is written again. -/
def finalize (w : Writer) : Writer :=
  if w.numFilesProcessed > 0 then
    let curOffset := w.file.pos
    let fheader := w.finalHeader
    let file := (w.file.seek w.currentFileHeaderOffset).write (packWords fheader.words)
    let file := file.write fheader.path
    let file := if fheader.targetPath.length ≠ 0 then file.write fheader.targetPath else file
    { w with file := file.seek curOffset, currentFileHeaderOffset := curOffset }
  else w

/-- The second half: a preliminary header for the new file. -/
def beginFile (w : Writer) (path : CPath) (st : Stat) (target : CPath) : Writer :=
  let fheader := FileHeader.ofStat st path target
  let file := w.file.write (packWords fheader.words)
  let file := file.write fheader.path
  let file := if isLnk fheader.perm then file.write fheader.targetPath else file
  { w with
    file := file
    currentFile := fheader
    currentFileHeaderOffset := w.file.pos
    numFilesProcessed := w.numFilesProcessed + 1
    numHashesProcessedCurrentFile := 0 }

def hashfileAddFile (w : Writer) (path : CPath) (st : Stat) (target : CPath) : Writer :=
  w.finalize.beginFile path st target

def hashfileAddChunk (w : Writer) (ci : ChunkInfo) : Writer :=
  let file :=
    match w.header.chnkMethod with
    | .var => w.file.write (leBytes 4 ci.size)
    | .fixed _ => w.file
  let file := file.write (ci.hash.take (w.header.hashSize / 8))
  let file := file.write [ci.cratio]
  { w with
    file := file
    numHashesProcessedCurrentFile := w.numHashesProcessedCurrentFile + 1
    header := { w.header with chunks := w.header.chunks + 1, bytes := w.header.bytes + ci.size } }

def hashfileClose (w : Writer) : HashFile :=
  ⟨{ w.header with files := w.numFilesProcessed }, w.finalize.file.data⟩

end Writer

/-- A file of the scan and the chunks that are added for it. -/
structure Entry where
  path : CPath
  stat : Stat
  target : CPath
  chunks : List ChunkInfo

def Writer.addEntry (w : Writer) (e : Entry) : Writer :=
  e.chunks.foldl Writer.hashfileAddChunk (w.hashfileAddFile e.path e.stat e.target)

def writeHashFile (method : ChnkingMethod) (hashSize : ℕ) (junk : FileHeader)
    (entries : List Entry) : HashFile :=
  (entries.foldl Writer.addEntry (hashfileOpen4write method hashSize junk)).hashfileClose

/-! ### What a hash file consists of -/

namespace Entry

def header (e : Entry) : FileHeader :=
  { FileHeader.ofStat e.stat e.path e.target with chunks := e.chunks.length }

def record (method : ChnkingMethod) (ci : ChunkInfo) : List Byte :=
  (match method with
    | .var => leBytes 4 ci.size
    | .fixed _ => []) ++ ci.hash ++ [ci.cratio]

def image (method : ChnkingMethod) (e : Entry) : List Byte :=
  e.header.image ++ e.chunks.flatMap (record method)

end Entry

/-- All hashes have the size that the main header gives. -/
def HashesFit (hashSize : ℕ) (chunks : List ChunkInfo) : Prop :=
  ∀ ci ∈ chunks, ci.hash.length = hashSize / 8

/-- Between two files: everything so far is final. -/
structure Settled (method : ChnkingMethod) (hashSize : ℕ) (w : Writer) (es : List Entry) :
    Prop where
  data : w.file.data = es.flatMap (Entry.image method)
  pos : w.file.pos = w.file.data.length
  files : w.numFilesProcessed = es.length
  header : w.header = ⟨method, hashSize, 0, (es.flatMap Entry.chunks).length,
    ((es.flatMap Entry.chunks).map ChunkInfo.size).sum⟩

/-- Inside a file: its header is still the preliminary one. -/
structure Opened (method : ChnkingMethod) (hashSize : ℕ) (w : Writer) (es : List Entry)
    (e : Entry) : Prop where
  data : w.file.data = es.flatMap (Entry.image method) ++
    (FileHeader.ofStat e.stat e.path e.target).image ++ e.chunks.flatMap (Entry.record method)
  pos : w.file.pos = w.file.data.length
  files : w.numFilesProcessed = es.length + 1
  header : w.header = ⟨method, hashSize, 0, ((es ++ [e]).flatMap Entry.chunks).length,
    (((es ++ [e]).flatMap Entry.chunks).map ChunkInfo.size).sum⟩
  current : w.currentFile = FileHeader.ofStat e.stat e.path e.target
  offset : w.currentFileHeaderOffset = (es.flatMap (Entry.image method)).length
  hashes : w.numHashesProcessedCurrentFile = e.chunks.length

/-- The three writes of a header are one write of its image. -/
theorem write_image (f : ByteFile) (h : FileHeader) (p : Prop) [Decidable p]
    (hp : ¬ p → h.targetPath = []) (hpos : f.pos ≤ f.data.length) :
    (if p then ((f.write (packWords h.words)).write h.path).write h.targetPath
      else (f.write (packWords h.words)).write h.path) = f.write h.image := by
  have hpath := ByteFile.write_write f (packWords h.words) h.path hpos
  by_cases htarget : p
  · rw [if_pos htarget, hpath, ByteFile.write_write f _ _ hpos, FileHeader.image]
  · rw [if_neg htarget, hpath, FileHeader.image, hp htarget, List.append_nil]

theorem length_image_chunks (h : FileHeader) (n : ℕ) :
    ({ h with chunks := n } : FileHeader).image.length = h.image.length := by
  simp only [FileHeader.image, List.length_append, FileHeader.length_packWords_words]

section Writing

variable {method : ChnkingMethod} {hashSize : ℕ} {w : Writer} {es : List Entry} {e : Entry}

/-- The overwritten header has the length of the preliminary one, so no chunk is lost. -/
theorem Opened.finalize (h : Opened method hashSize w es e) :
    Settled method hashSize w.finalize (es ++ [e]) := by
  have hfinal : w.finalize = { w with
      file := ((w.file.seek w.currentFileHeaderOffset).write e.header.image).seek w.file.pos
      currentFileHeaderOffset := w.file.pos } := by
    have hcur : w.finalHeader = e.header := by
      rw [Writer.finalHeader, h.current, h.hashes, Entry.header]
    have hle : (w.file.seek w.currentFileHeaderOffset).pos
        ≤ (w.file.seek w.currentFileHeaderOffset).data.length := by
      show w.currentFileHeaderOffset ≤ w.file.data.length
      rw [h.offset, h.data, List.length_append, List.length_append]
      omega
    have himage := write_image (w.file.seek w.currentFileHeaderOffset) e.header
      (e.header.targetPath.length ≠ 0) (by simp) hle
    rw [Writer.finalize, if_pos (by rw [h.files]; omega)]
    simp only [hcur, himage]
  have hwrite : (w.file.seek w.currentFileHeaderOffset).write e.header.image
      = ⟨es.flatMap (Entry.image method) ++ e.header.image ++
          e.chunks.flatMap (Entry.record method),
        (es.flatMap (Entry.image method) ++ e.header.image).length⟩ := by
    rw [ByteFile.seek, h.data, h.offset]
    exact ByteFile.write_over _ _ _ _ (length_image_chunks _ _)
  have hdata : (es ++ [e]).flatMap (Entry.image method)
      = es.flatMap (Entry.image method) ++ e.header.image ++
          e.chunks.flatMap (Entry.record method) := by
    rw [List.flatMap_append, List.flatMap_singleton, Entry.image, List.append_assoc]
  rw [hfinal, hwrite]
  refine ⟨hdata.symm, ?_, ?_, h.header⟩
  · show w.file.pos = _
    rw [h.pos, h.data]
    simp only [ByteFile.seek, List.length_append, Entry.header, length_image_chunks]
  · show w.numFilesProcessed = _
    rw [h.files, List.length_append, List.length_singleton]

theorem Settled.beginFile (h : Settled method hashSize w es) (path : CPath) (st : Stat)
    (target : CPath) :
    Opened method hashSize (w.beginFile path st target) es ⟨path, st, target, []⟩ := by
  have himage := write_image w.file (FileHeader.ofStat st path target)
    (isLnk st.stMode = true) (fun hno => if_neg hno) (Nat.le_of_eq h.pos)
  have hend : w.file = ⟨w.file.data, w.file.data.length⟩ := by rw [← h.pos]
  have hfile : (w.beginFile path st target).file
      = ⟨w.file.data ++ (FileHeader.ofStat st path target).image,
        (w.file.data ++ (FileHeader.ofStat st path target).image).length⟩ := by
    rw [← ByteFile.write_at_end, ← hend, ← himage]
    rfl
  refine ⟨?_, ?_, ?_, ?_, rfl, ?_, rfl⟩
  · rw [hfile, h.data]
    simp
  · rw [hfile]
  · show w.numFilesProcessed + 1 = _
    rw [h.files]
  · show w.header = _
    rw [h.header]
    simp
  · show w.file.pos = _
    rw [h.pos, h.data]

theorem Opened.addChunk (h : Opened method hashSize w es e) {ci : ChunkInfo}
    (hfit : ci.hash.length = hashSize / 8) :
    Opened method hashSize (w.hashfileAddChunk ci) es { e with chunks := e.chunks ++ [ci] } := by
  have hend : w.file = ⟨w.file.data, w.file.data.length⟩ := by rw [← h.pos]
  have hle := Nat.le_of_eq h.pos
  have hsize : w.header.hashSize = hashSize := by rw [h.header]
  have hmethod : w.header.chnkMethod = method := by rw [h.header]
  have hfile : (w.hashfileAddChunk ci).file
      = ⟨w.file.data ++ Entry.record method ci, (w.file.data ++ Entry.record method ci).length⟩ := by
    rw [← ByteFile.write_at_end, ← hend, Writer.hashfileAddChunk, hsize, ← hfit,
      List.take_length, hmethod]
    cases method with
    | var =>
      simp only [Entry.record]
      rw [ByteFile.write_write _ _ _ hle, ByteFile.write_write _ _ _ hle]
    | fixed n =>
      simp only [Entry.record, List.nil_append]
      rw [ByteFile.write_write _ _ _ hle]
  refine ⟨?_, ?_, h.files, ?_, h.current, h.offset, ?_⟩
  · rw [hfile, h.data]
    simp
  · rw [hfile]
  · rw [Writer.hashfileAddChunk, h.header]
    simp [Nat.add_assoc]
  · show w.numHashesProcessedCurrentFile + 1 = _
    rw [h.hashes, List.length_append, List.length_singleton]

theorem Opened.addChunks (h : Opened method hashSize w es e) {cs : List ChunkInfo}
    (hfit : HashesFit hashSize cs) :
    Opened method hashSize (cs.foldl Writer.hashfileAddChunk w) es
      { e with chunks := e.chunks ++ cs } := by
  induction cs generalizing w e with
  | nil => rwa [List.append_nil]
  | cons ci cs ih =>
    have hnext := ih (h.addChunk (hfit ci List.mem_cons_self))
      fun c hc => hfit c (List.mem_cons_of_mem _ hc)
    rwa [List.append_assoc] at hnext

theorem Settled.addEntry (h : Settled method hashSize w.finalize es)
    (hfit : HashesFit hashSize e.chunks) :
    Settled method hashSize (w.addEntry e).finalize (es ++ [e]) :=
  ((h.beginFile e.path e.stat e.target).addChunks hfit).finalize

theorem Settled.addEntries (h : Settled method hashSize w.finalize es) {es' : List Entry}
    (hfit : ∀ e ∈ es', HashesFit hashSize e.chunks) :
    Settled method hashSize (es'.foldl Writer.addEntry w).finalize (es ++ es') := by
  induction es' generalizing w es with
  | nil => rwa [List.append_nil]
  | cons e es' ih =>
    have hnext := ih (h.addEntry (hfit e List.mem_cons_self))
      fun e' he' => hfit e' (List.mem_cons_of_mem _ he')
    rwa [List.append_assoc] at hnext

end Writing

/-- `do_add_file` changes nothing but the file and the offset when it finalises. -/
theorem finalize_header (w : Writer) : w.finalize.header = w.header := by
  unfold Writer.finalize
  split
  · rfl
  · rfl

theorem finalize_files (w : Writer) : w.finalize.numFilesProcessed = w.numFilesProcessed := by
  unfold Writer.finalize
  split
  · rfl
  · rfl

theorem writeHashFile_eq (method : ChnkingMethod) (hashSize : ℕ) (junk : FileHeader)
    (entries : List Entry) (hfit : ∀ e ∈ entries, HashesFit hashSize e.chunks) :
    writeHashFile method hashSize junk entries
      = ⟨⟨method, hashSize, entries.length, (entries.flatMap Entry.chunks).length,
          ((entries.flatMap Entry.chunks).map ChunkInfo.size).sum⟩,
        entries.flatMap (Entry.image method)⟩ := by
  have h0 : Settled method hashSize (hashfileOpen4write method hashSize junk).finalize [] :=
    ⟨rfl, rfl, rfl, rfl⟩
  have h := h0.addEntries hfit
  rw [List.nil_append] at h
  rw [writeHashFile, Writer.hashfileClose, h.data, ← finalize_header, ← finalize_files, h.header,
    h.files]

end FreqAnalysis.FsHasher
