import FreqAnalysis.Base.Lists
import FreqAnalysis.FsHasher.HashFileRead
import FreqAnalysis.TraceFormat

/-!
# Printing hash files as traces (hf-stat.c)

`hf-stat -h` goes through the files of a hash file and prints one line for each chunk, with
a title before the first one. The text is the trace that the other programs read. The
readers keep the lower half of a size only, so what `hashfile_next_chunk` leaves in the
upper half of it does no harm.
-/

namespace FreqAnalysis.FsHasher
open Base

/-- `printf("%-*s", width, s)`. -/
def padTo (width : ℕ) (s : List Char) : List Char := s ++ List.replicate (width - s.length) ' '

def chunkTitle (hashSize : ℕ) : List Char :=
  padTo (hashSize * 2) "Chunk Hash".toList ++
    " \t\t\tChunk Size (bytes) \tCompression Ratio (tenth)".toList

def printChunkInfo (ci : ChunkInfo) : List Char :=
  hexByte (ci.hash.getD 0 0) ++ ((ci.hash.drop 1).flatMap (fun c => ':' :: hexByte c) ++
    ("\t\t".toList ++ (decimal ci.size ++
      (" \t\t\t".toList ++ (decimal ci.cratio.val ++ " ".toList)))))

/-- The lines, `first_entry_flag` and the handle after the loop. -/
def displayChunkHashes (hashSize : ℕ) : ℕ → Bool → Reader → List (List Char) × Bool × Reader
  | 0, first, r => ([], first, r)
  | n + 1, first, r =>
    match r.hashfileNextChunk with
    | none => ([], first, r)
    | some (ci, r') =>
      let shown := displayChunkHashes hashSize n false r'
      ((if first then [chunkTitle hashSize] else []) ++ printChunkInfo ci :: shown.1, shown.2)

def processHashfile (hashSize : ℕ) : ℕ → Bool → Reader → Option (List (List Char))
  | 0, _, _ => none
  | n + 1, first, r =>
    match r.hashfileNextFile with
    | .eof => some []
    | .failed => none
    | .file r' =>
      let shown := displayChunkHashes hashSize (r'.currentFile.chunks + 1) first r'
      (processHashfile hashSize n shown.2.1 shown.2.2).map fun lines => shown.1 ++ lines

/-- The output of `hf-stat -h`. -/
def hfStat (hf : HashFile) (junk : FileHeader) (stale : ℕ) : Option (List Char) :=
  (processHashfile (hf.header.hashSize / 8) (hf.header.files + 1) true
    (hashfileOpen hf junk stale)).map putLines

/-! ### The lines -/

/-- The title is printed before the first chunk only. -/
def titled (hashSize : ℕ) (first : Bool) (rows : List (List Char)) : List (List Char) :=
  if first && !rows.isEmpty then chunkTitle hashSize :: rows else rows

theorem titled_append (hashSize : ℕ) (first : Bool) (rows rows' : List (List Char)) :
    titled hashSize first rows ++ titled hashSize (first && rows.isEmpty) rows'
      = titled hashSize first (rows ++ rows') := by
  cases first with
  | false => rfl
  | true =>
    cases rows with
    | nil => rfl
    | cons row rows => rfl

section Printing

variable {method : ChnkingMethod} {hashSize high : ℕ}

theorem InFile.display {r : Reader} {e : Entry} {k : ℕ} {es : List Entry} (width n : ℕ)
    (first : Bool) (h : InFile method hashSize high r e k es) (hr : Readable method hashSize e)
    (hn : e.chunks.length < n + k) :
    let rows := (e.chunks.drop k).map fun ci => printChunkInfo (report high ci method)
    ∃ r', displayChunkHashes width n first r
        = (titled width first rows, first && rows.isEmpty, r') ∧
      InFile method hashSize high r' e e.chunks.length es := by
  induction n generalizing r k first with
  | zero =>
    have := h.le
    omega
  | succ n ih =>
    cases hget : e.chunks[k]? with
    | none =>
      have hlen : e.chunks.length ≤ k := List.getElem?_eq_none_iff.mp hget
      have hk : k = e.chunks.length := Nat.le_antisymm h.le hlen
      have hnone : r.hashfileNextChunk = none := by
        rw [Reader.hashfileNextChunk, if_pos]
        rw [h.current, h.hashes, hk]
        rfl
      refine ⟨r, ?_, hk ▸ h⟩
      rw [List.drop_eq_nil_of_le hlen]
      simp [displayChunkHashes, hnone, titled]
    | some ci =>
      obtain ⟨r1, hnext, h1⟩ := h.nextChunk hr hget
      obtain ⟨hlt, hci⟩ := List.getElem?_eq_some_iff.mp hget
      obtain ⟨r', hshown, h'⟩ := ih false h1 (by omega)
      refine ⟨r', ?_, h'⟩
      rw [List.drop_eq_getElem_cons hlt, hci]
      simp only [displayChunkHashes, hnext, hshown]
      cases first with
      | true => simp [titled]
      | false => simp [titled]

theorem processHashfile_eq {r : Reader} {es : List Entry} (width n : ℕ) (first : Bool)
    (hn : es.length < n) (hm : r.header.chnkMethod = method) (hs : r.header.hashSize = hashSize)
    (hfiles : r.header.files = r.numFilesProcessed + es.length)
    (hskip : r.skipOverCurrentFileHashes.rest = es.flatMap (Entry.image method))
    (hstale : method = .var → r.currentSize / 2 ^ 32 = high)
    (hr : ∀ e ∈ es, Readable method hashSize e) :
    processHashfile width n first r = some (titled width first
      ((es.flatMap Entry.chunks).map fun ci => printChunkInfo (report high ci method))) := by
  induction n generalizing r es first with
  | zero => omega
  | succ n ih =>
    cases es with
    | nil =>
      have heof : r.hashfileNextFile = .eof := by
        rw [Reader.hashfileNextFile, if_pos (by simpa using hfiles.symm)]
      rw [processHashfile, heof]
      simp [titled]
    | cons e es =>
      have hre := hr e List.mem_cons_self
      obtain ⟨r1, hnext, h1⟩ := nextFile_cons hm hs hfiles hskip hstale hre
      have hchunks : r1.currentFile.chunks = e.chunks.length := by
        rw [h1.current]
        rfl
      obtain ⟨r2, hshown, h2⟩ := h1.display width (r1.currentFile.chunks + 1) first hre
        (by omega)
      rw [List.length_cons] at hn
      have hrest := ih (first && ((e.chunks.drop 0).map fun ci =>
          printChunkInfo (report high ci method)).isEmpty) (by omega) h2.chnkMethod h2.size h2.files
        (h2.skip hre) h2.stale fun e' he' => hr e' (List.mem_cons_of_mem _ he')
      simp only [processHashfile, hnext, hshown, hrest, Option.map_some]
      rw [titled_append, List.drop_zero, List.flatMap_cons, List.map_append]

theorem hfStat_eq (entries : List Entry) (hr : ∀ e ∈ entries, Readable method hashSize e)
    (junk junk' : FileHeader) (stale : ℕ) :
    hfStat (writeHashFile method hashSize junk entries) junk' stale
      = some (putLines (titled (hashSize / 8) true ((entries.flatMap Entry.chunks).map fun ci =>
          printChunkInfo (report (stale / 2 ^ 32) ci method)))) := by
  have hlines := processHashfile_eq (hashSize / 8) (entries.length + 1) true
    (Nat.lt_succ_self _) rfl rfl (Nat.zero_add _).symm
    (hashfileOpen_skip method hashSize junk' stale entries) (fun _ => rfl) hr
  rw [hfStat, writeHashFile_eq method hashSize junk entries fun e he => (hr e he).hashes]
  exact congrArg (Option.map putLines) hlines

end Printing

/-! ### Reading the lines -/

theorem chunkTitle_line : isTitle (chunkTitle 6 ++ ['\n']) = true ∧ '\n' ∉ chunkTitle 6 ∧
    (chunkTitle 6).length + 1 < 256 := by decide +kernel

section Lines

variable {ci : ChunkInfo}

theorem isTraceChar_printChunkInfo (hlen : ci.hash.length = fpSize) :
    ∀ c ∈ printChunkInfo ci, isTraceChar c = true := by
  have htabs : ("\t\t".toList).all isTraceChar = true := by decide
  have hblank : (" \t\t\t".toList).all isTraceChar = true := by decide
  have hend : (" ".toList).all isTraceChar = true := by decide
  intro c hc
  rw [printChunkInfo, ← List.append_assoc] at hc
  rcases List.mem_append.mp hc with hc | hc
  · exact isTraceChar_printHash ⟨ci.hash, hlen⟩ c hc
  · simp only [List.mem_append] at hc
    rcases hc with hc | hc | hc | hc | hc
    · exact List.all_eq_true.mp htabs c hc
    · rw [isTraceChar, isHex_of_mem_decimal ci.size c hc, Bool.true_or]
    · exact List.all_eq_true.mp hblank c hc
    · rw [isTraceChar, isHex_of_mem_decimal ci.cratio.val c hc, Bool.true_or]
    · exact List.all_eq_true.mp hend c hc

theorem printChunkInfo_length (hlen : ci.hash.length = fpSize) (hsize : ci.size < 2 ^ 63) :
    (printChunkInfo ci).length + 1 < 256 := by
  have hdec := decimal_length_le ci.size 19 (by norm_num) (by omega)
  have hratio := decimal_length_le ci.cratio.val 3 (by norm_num) (by have := ci.cratio.isLt; omega)
  have htabs : ("\t\t".toList).length = 2 := by decide
  have hblank : (" \t\t\t".toList).length = 4 := by decide
  have hend : (" ".toList).length = 1 := by decide
  have hhash := printHash_length ⟨ci.hash, hlen⟩
  rw [printHash, List.length_append] at hhash
  simp only [printChunkInfo, List.length_append]
  simp only at hhash
  omega

/-- The token behind the hash is the size with one blank. -/
theorem splitLine_printChunkInfo (hlen : ci.hash.length = fpSize) :
    splitLine (printChunkInfo ci ++ ['\n'])
      = (Fp.ofBytes ci.hash, some (decimal ci.size ++ [' '])) := by
  have hfp : Fp.ofBytes ci.hash = ⟨ci.hash, hlen⟩ := Fp.ofBytes_val ⟨ci.hash, hlen⟩
  rw [hfp]
  exact splitLine_traceLine ⟨ci.hash, hlen⟩ ci.size (isTraceChar_printChunkInfo hlen)
    (by simp [printChunkInfo, printHash] : _ = printHash ⟨ci.hash, hlen⟩ ++ '\t' :: '\t' ::
      ((decimal ci.size ++ [' ']) ++
        '\t' :: ("\t\t".toList ++ (decimal ci.cratio.val ++ " \n".toList))))

theorem readChunk_printChunkInfo (hlen : ci.hash.length = fpSize) (hsize : ci.size < 2 ^ 63)
    (hlow : ci.size % 2 ^ 32 < 2 ^ 31) :
    readChunk (printChunkInfo ci ++ ['\n'])
      = some ⟨Fp.ofBytes ci.hash, (ci.size % 2 ^ 32 : ℕ)⟩ := by
  rw [readChunk, splitLine_printChunkInfo hlen, Option.map_some,
    atoi_decimal_low ci.size [' '] hsize hlow (by decide)]

end Lines

theorem dataLines_titled (cs : List ChunkInfo)
    (h : ∀ ci ∈ cs, ci.hash.length = fpSize ∧ ci.size < 2 ^ 63) :
    dataLines (putLines (titled 6 true (cs.map printChunkInfo)))
      = cs.map fun ci => printChunkInfo ci ++ ['\n'] := by
  have hrows : ∀ l ∈ cs.map printChunkInfo, '\n' ∉ l ∧ l.length + 1 < 256 := by
    intro l hl
    obtain ⟨ci, hci, rfl⟩ := List.mem_map.mp hl
    obtain ⟨hlen, hsize⟩ := h ci hci
    exact ⟨not_mem_of_isTraceChar (isTraceChar_printChunkInfo hlen) (by decide),
      printChunkInfo_length hlen hsize⟩
  have hkept : ((cs.map printChunkInfo).map fun l => l ++ ['\n']).filter (fun buf => !isTitle buf)
      = cs.map fun ci => printChunkInfo ci ++ ['\n'] := by
    rw [List.map_map]
    apply List.filter_eq_self.mpr
    intro buf hbuf
    obtain ⟨ci, hci, rfl⟩ := List.mem_map.mp hbuf
    simp [isTitle_traceLine (isTraceChar_printChunkInfo (h ci hci).1)]
  cases cs with
  | nil => rfl
  | cons ci cs =>
    have htitled : titled 6 true ((ci :: cs).map printChunkInfo)
        = chunkTitle 6 :: (ci :: cs).map printChunkInfo := rfl
    rw [htitled, dataLines, fgetsAll_putLines 256 _ (List.forall_mem_cons.mpr
      ⟨⟨chunkTitle_line.2.1, chunkTitle_line.2.2⟩, hrows⟩), List.map_cons,
      List.filter_cons_of_neg (by simp [chunkTitle_line.1]), hkept]

theorem readChunks_titled (cs : List ChunkInfo)
    (h : ∀ ci ∈ cs, ci.hash.length = fpSize ∧ ci.size < 2 ^ 63 ∧ ci.size % 2 ^ 32 < 2 ^ 31) :
    readChunks (putLines (titled 6 true (cs.map printChunkInfo)))
      = some (cs.map fun ci => ⟨Fp.ofBytes ci.hash, (ci.size % 2 ^ 32 : ℕ)⟩) := by
  rw [readChunks, dataLines_titled cs fun ci hci => ⟨(h ci hci).1, (h ci hci).2.1⟩,
    List.mapM_map]
  apply mapM_eq_some_map
  intro ci hci
  obtain ⟨hlen, hsize, hlow⟩ := h ci hci
  exact readChunk_printChunkInfo hlen hsize hlow

/-- What `hf-stat -h` prints of a hash file with 48-bit hashes is a trace of all the chunks
that were added to it, in order. -/
theorem hf_stat_trace (method : ChnkingMethod) (entries : List Entry)
    (hreadable : ∀ e ∈ entries, Readable method 48 e)
    (hsize : ∀ e ∈ entries, ∀ ci ∈ e.chunks, ci.size < 2 ^ 31) (junk junk' : FileHeader)
    (stale : ℕ) (hstale : stale < 2 ^ 63) :
    ∃ text, hfStat (writeHashFile method 48 junk entries) junk' stale = some text ∧
      readChunks text = some ((entries.flatMap Entry.chunks).map fun ci =>
        ⟨Fp.ofBytes ci.hash, ci.size⟩) := by
  refine ⟨_, hfStat_eq entries hreadable junk junk' stale, ?_⟩
  have hreport : ∀ ci ∈ entries.flatMap Entry.chunks,
      (report (stale / 2 ^ 32) ci method).hash = ci.hash ∧ ci.hash.length = fpSize ∧
        (report (stale / 2 ^ 32) ci method).size < 2 ^ 63 ∧
        (report (stale / 2 ^ 32) ci method).size % 2 ^ 32 = ci.size ∧ ci.size < 2 ^ 31 := by
    intro ci hci
    obtain ⟨e, he, hce⟩ := List.mem_flatMap.mp hci
    have hlt := hsize e he ci hce
    have hlen : ci.hash.length = fpSize := (hreadable e he).hashes ci hce
    cases method with
    | var =>
      refine ⟨rfl, hlen, ?_, ?_, hlt⟩
      · show stale / 2 ^ 32 * 2 ^ 32 + ci.size < 2 ^ 63
        omega
      · show (stale / 2 ^ 32 * 2 ^ 32 + ci.size) % 2 ^ 32 = ci.size
        omega
    | fixed n =>
      exact ⟨rfl, hlen, by simp only [report]; omega,
        Nat.mod_eq_of_lt (by simp only [report]; omega), hlt⟩
  have hmap : (entries.flatMap Entry.chunks).map
        (fun ci => printChunkInfo (report (stale / 2 ^ 32) ci method))
      = ((entries.flatMap Entry.chunks).map (report (stale / 2 ^ 32) · method)).map
          printChunkInfo := by
    rw [List.map_map]
    rfl
  rw [hmap, show 48 / 8 = 6 by rfl, readChunks_titled, List.map_map]
  · congr 1
    apply List.map_congr_left
    intro ci hci
    obtain ⟨hhash, -, -, hlow, -⟩ := hreport ci hci
    simp only [Function.comp_apply, hhash, hlow]
  · intro c hc
    obtain ⟨ci, hci, rfl⟩ := List.mem_map.mp hc
    obtain ⟨hhash, hlen, hbig, hlow, hlt⟩ := hreport ci hci
    exact ⟨hhash ▸ hlen, hbig, hlow ▸ hlt⟩

end FreqAnalysis.FsHasher
