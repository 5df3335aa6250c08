import FreqAnalysis.Base.CText
import FreqAnalysis.Fingerprint

/-!
# Trace files

The defenses print a trace as a title line and one line per chunk: six
hexadecimal bytes, the size, and a constant compression ratio. Every program
reads such a file with the same loop: lines with one of the characters of
`"Chunk"` are skipped, up to six tokens become the bytes of the fingerprint, and
the token left after them is the size. The counting programs never look at it;
for the others a missing token is a null pointer.
-/

namespace FreqAnalysis
open Base

/-! ### Printing -/

def titleLine : List Char :=
  "Chunk Hash\t\t\tChunk Size (bytes)\tCompression Ratio (tenth)".toList

def printHash (h : Fp) : List Char :=
  hexByte (h.val.getD 0 0) ++ (h.val.drop 1).flatMap (fun c => ':' :: hexByte c)

def printLine (h : Fp) (size : ℕ) : List Char :=
  printHash h ++ ("\t\t".toList ++ (decimal size ++ " \t\t\t10".toList))

/-- The output of a program that prints these chunks. -/
def printTrace (rs : List (Fp × ℕ)) : List Char :=
  putLines (titleLine :: rs.map fun r => printLine r.1 r.2)

/-! ### Reading -/

def firstDelim : List Char := ":\t\n ".toList

def laterDelim : List Char := ":\t\n".toList

/-- `hash[idx++] = strtol(item, NULL, 16)`. -/
def charOfLong (n : ℤ) : Byte := Fin.ofNat 256 (n % 256).toNat

/-- `while (item != NULL && idx < FP_SIZE)`: the bytes stored, and `item` after
the loop. -/
def hashLoop : ℕ → Option (List Char × List Char) → List Byte × Option (List Char)
  | 0, item => ([], item.map Prod.fst)
  | _ + 1, none => ([], none)
  | n + 1, some (item, rest) =>
    let r := hashLoop n (strtok laterDelim rest)
    (charOfLong (strtol 16 item) :: r.1, r.2)

def splitLine (buf : List Char) : Fp × Option (List Char) :=
  let r := hashLoop fpSize (strtok firstDelim (cText buf))
  (Fp.ofBytes r.1, r.2)

/-- The test of the comment `skip title line`. -/
def isTitle (buf : List Char) : Bool := strpbrk (cText buf) "Chunk".toList

def dataLines (text : List Char) : List (List Char) :=
  (fgetsAll 256 text).filter fun buf => !isTitle buf

def readFps (text : List Char) : List Fp := (dataLines text).map fun buf => (splitLine buf).1

def readChunk (buf : List Char) : Option Chunk :=
  (splitLine buf).2.map fun item => ⟨(splitLine buf).1, atoi item⟩

def readChunks (text : List Char) : Option (List Chunk) := (dataLines text).mapM readChunk

theorem readFps_of_readChunks (text : List Char) (cs : List Chunk) (h : readChunks text = some cs) :
    readFps text = cs.map Chunk.hash := by
  unfold readChunks at h
  unfold readFps
  generalize dataLines text = bufs at h ⊢
  induction bufs generalizing cs with
  | nil =>
    cases h
    rfl
  | cons buf bufs ih =>
    simp only [List.mapM_cons, Option.bind_eq_bind, Option.pure_def, Option.bind_eq_some_iff,
      Option.some.injEq] at h
    obtain ⟨c, hc, cs', hcs, rfl⟩ := h
    obtain ⟨item, -, rfl⟩ := Option.map_eq_some_iff.mp hc
    rw [List.map_cons, List.map_cons, ih cs' hcs]

/-! ### What a printed line is made of -/

def isTraceChar (c : Char) : Bool := isHex c || [':', '\t', ' '].contains c

theorem isHex_of_mem_decimal (n : ℕ) (c : Char) (h : c ∈ decimal (n : ℤ)) : isHex c = true := by
  rw [isHex, isDigit_of_mem_decimal n c h, Bool.true_or]

theorem isTraceChar_printHash (h : Fp) : ∀ c ∈ printHash h, isTraceChar c = true := by
  intro c hc
  rcases List.mem_append.mp hc with hc | hc
  · rw [isTraceChar, isHex_of_mem_hexByte _ c hc, Bool.true_or]
  · obtain ⟨b, -, hb⟩ := List.mem_flatMap.mp hc
    rcases List.mem_cons.mp hb with rfl | hb
    · decide
    · rw [isTraceChar, isHex_of_mem_hexByte _ c hb, Bool.true_or]

theorem isTraceChar_printLine (h : Fp) (size : ℕ) :
    ∀ c ∈ printLine h size, isTraceChar c = true := by
  have htabs : ("\t\t".toList).all isTraceChar = true := by decide
  have hratio : (" \t\t\t10".toList).all isTraceChar = true := by decide
  intro c hc
  simp only [printLine, List.mem_append] at hc
  rcases hc with hc | hc | hc | hc
  · exact isTraceChar_printHash h c hc
  · exact List.all_eq_true.mp htabs c hc
  · rw [isTraceChar, isHex_of_mem_decimal size c hc, Bool.true_or]
  · exact List.all_eq_true.mp hratio c hc

theorem not_mem_of_isTraceChar {line : List Char} (hline : ∀ c ∈ line, isTraceChar c = true)
    {c : Char} (hc : isTraceChar c = false) : c ∉ line := by
  intro hmem
  rw [hline c hmem] at hc
  cases hc

theorem printHash_length (h : Fp) : (printHash h).length = 17 := by
  have htail : ∀ l : List Byte, (l.flatMap fun c => ':' :: hexByte c).length = 3 * l.length := by
    intro l
    induction l with
    | nil => rfl
    | cons c l ih =>
      rw [List.flatMap_cons, List.length_append, ih, List.length_cons, List.length_cons, hexByte]
      simp only [List.length_cons, List.length_nil]
      omega
  rw [printHash, List.length_append, htail, List.length_drop, h.property]
  rfl

theorem printLine_length (h : Fp) (size : ℕ) (hs : size < 2 ^ 31) :
    (printLine h size).length + 1 < 256 := by
  have hdec := decimal_length_le size 10 (by norm_num) (by omega)
  simp only [printLine, List.length_append, printHash_length]
  have htabs : ("\t\t".toList).length = 2 := by decide
  have hratio : (" \t\t\t10".toList).length = 6 := by decide
  omega

/-! ### Reading a printed line -/

theorem charOfLong_hexByte (c : Byte) : charOfLong (strtol 16 (hexByte c)) = c := strtol_hexByte c

theorem not_mem_delim_of_isHex (c : Char) (h : isHex c = true) : c ∉ firstDelim := by
  have hnone : firstDelim.all (fun d => !isHex d) = true := by decide
  intro hmem
  have hd := List.all_eq_true.mp hnone c hmem
  rw [h] at hd
  cases hd

theorem mem_firstDelim_of_laterDelim (c : Char) (h : c ∈ laterDelim) : c ∈ firstDelim := by
  have hall : laterDelim.all (firstDelim.contains ·) = true := by decide
  simpa using List.all_eq_true.mp hall c h

theorem strtok_hexByte (delim : List Char) (hdelim : delim ⊆ firstDelim) (b : Byte) (d : Char)
    (hd : d ∈ delim) (rest : List Char) :
    strtok delim (hexByte b ++ d :: rest) = some (hexByte b, rest) := by
  refine strtok_token delim (hexByte b) rest d (by simp [hexByte]) ?_ hd
  intro c hc hmem
  exact not_mem_delim_of_isHex c (isHex_of_mem_hexByte b c hc) (hdelim hmem)

theorem hashLoop_printed (delim : List Char) (hdelim : delim ⊆ firstDelim) (hcolon : ':' ∈ delim)
    (htab : '\t' ∈ delim) (b : Byte) (bs : List Byte) (rest : List Char) :
    hashLoop (bs.length + 1)
        (strtok delim (hexByte b ++ (bs.flatMap (fun c => ':' :: hexByte c) ++ '\t' :: rest)))
      = (b :: bs, (strtok laterDelim rest).map Prod.fst) := by
  induction bs generalizing delim b with
  | nil =>
    rw [List.flatMap_nil, List.nil_append, strtok_hexByte delim hdelim b '\t' htab]
    simp only [List.length_nil, hashLoop, charOfLong_hexByte]
  | cons c bs ih =>
    have hrec := ih laterDelim mem_firstDelim_of_laterDelim (by decide) (by decide) c
    rw [List.flatMap_cons, List.append_assoc, List.cons_append,
      strtok_hexByte delim hdelim b ':' hcolon]
    simp only [List.length_cons, hashLoop, charOfLong_hexByte, hrec]

/-- What both printers have in common: the hash, the size with one blank, and a tail. -/
theorem splitLine_traceLine (h : Fp) (size : ℕ) {line tail : List Char}
    (hline : ∀ c ∈ line, isTraceChar c = true)
    (htext : line ++ ['\n'] =
      printHash h ++ '\t' :: '\t' :: ((decimal size ++ [' ']) ++ '\t' :: tail)) :
    splitLine (line ++ ['\n']) = (h, some (decimal size ++ [' '])) := by
  have hnul : '\x00' ∉ line ++ ['\n'] := by
    rw [List.mem_append]
    rintro (hmem | hmem)
    · exact not_mem_of_isTraceChar hline (by decide) hmem
    · cases hmem with | tail _ h => cases h
  obtain ⟨l, hl⟩ := h
  obtain ⟨b, bs, rfl⟩ := List.exists_cons_of_length_eq_add_one hl
  have hlen : bs.length + 1 = fpSize := hl
  have hhash : printHash ⟨b :: bs, hl⟩ = hexByte b ++ bs.flatMap fun c => ':' :: hexByte c := rfl
  have hsize : strtok laterDelim ('\t' :: ((decimal size ++ [' ']) ++ '\t' :: tail))
      = some (decimal size ++ [' '], tail) := by
    rw [strtok_skip _ _ _ (by decide)]
    refine strtok_token _ _ _ _ (by simp) ?_ (by decide)
    intro c hc
    rcases List.mem_append.mp hc with hc | hc
    · intro hmem
      exact not_mem_delim_of_isHex c (isHex_of_mem_decimal size c hc)
        (mem_firstDelim_of_laterDelim c hmem)
    · rw [List.mem_singleton.mp hc]
      decide
  have hloop := hashLoop_printed firstDelim (fun _ h => h) (by decide) (by decide) b bs
    ('\t' :: ((decimal size ++ [' ']) ++ '\t' :: tail))
  rw [hlen, hsize] at hloop
  rw [splitLine, cText_eq_self _ hnul, htext, hhash, List.append_assoc, hloop,
    Fp.ofBytes_val ⟨b :: bs, hl⟩]
  rfl

theorem splitLine_printLine (h : Fp) (size : ℕ) :
    splitLine (printLine h size ++ ['\n']) = (h, some (decimal size ++ [' '])) :=
  splitLine_traceLine h size (isTraceChar_printLine h size)
    (by simp [printLine] : _ = printHash h ++ '\t' :: '\t' ::
      ((decimal size ++ [' ']) ++ '\t' :: "\t\t10\n".toList))

/-! ### Round trip -/

theorem isTitle_titleLine : isTitle (titleLine ++ ['\n']) = true := by decide +kernel

theorem isTitle_traceLine {line : List Char} (hline : ∀ c ∈ line, isTraceChar c = true) :
    isTitle (line ++ ['\n']) = false := by
  rw [isTitle, strpbrk, List.any_eq_false]
  intro c hc hmem
  have hnone : ("Chunk".toList).all (fun d => !isTraceChar d && d ≠ '\n') = true := by decide
  have hbad := List.all_eq_true.mp hnone c (by simpa using hmem)
  simp only [Bool.and_eq_true, Bool.not_eq_true', decide_eq_true_eq] at hbad
  rcases List.mem_append.mp ((List.takeWhile_prefix _).subset hc) with hc | hc
  · exact not_mem_of_isTraceChar hline hbad.1 hc
  · exact hbad.2 (List.mem_singleton.mp hc)

theorem dataLines_printTrace (rs : List (Fp × ℕ)) (h : ∀ r ∈ rs, r.2 < 2 ^ 31) :
    dataLines (printTrace rs) = rs.map fun r => printLine r.1 r.2 ++ ['\n'] := by
  have hlines : ∀ l ∈ titleLine :: rs.map (fun r => printLine r.1 r.2),
      '\n' ∉ l ∧ l.length + 1 < 256 := by
    intro l hl
    rcases List.mem_cons.mp hl with rfl | hl
    · decide
    · obtain ⟨r, hr, rfl⟩ := List.mem_map.mp hl
      exact ⟨not_mem_of_isTraceChar (isTraceChar_printLine r.1 r.2) (by decide),
        printLine_length r.1 r.2 (h r hr)⟩
  rw [dataLines, printTrace, fgetsAll_putLines 256 _ hlines, List.map_cons,
    List.filter_cons_of_neg (by simp [isTitle_titleLine]), List.map_map]
  apply List.filter_eq_self.mpr
  intro buf hbuf
  obtain ⟨r, -, rfl⟩ := List.mem_map.mp hbuf
  simp [isTitle_traceLine (isTraceChar_printLine _ _)]

theorem readFps_printTrace (rs : List (Fp × ℕ)) (h : ∀ r ∈ rs, r.2 < 2 ^ 31) :
    readFps (printTrace rs) = rs.map Prod.fst := by
  rw [readFps, dataLines_printTrace rs h, List.map_map]
  exact List.map_congr_left fun r _ => by rw [Function.comp_apply, splitLine_printLine]

theorem readChunk_printLine (h : Fp) (size : ℕ) (hs : size < 2 ^ 31) :
    readChunk (printLine h size ++ ['\n']) = some ⟨h, size⟩ := by
  rw [readChunk, splitLine_printLine, Option.map_some, atoi_decimal size [' '] hs (by decide)]

theorem readChunks_printTrace (rs : List (Fp × ℕ)) (h : ∀ r ∈ rs, r.2 < 2 ^ 31) :
    readChunks (printTrace rs) = some (rs.map fun r => ⟨r.1, r.2⟩) := by
  rw [readChunks, dataLines_printTrace rs h]
  induction rs with
  | nil => rfl
  | cons r rs ih =>
    have hrs : ∀ q ∈ rs, q.2 < 2 ^ 31 := fun q hq => h q (List.mem_cons_of_mem _ hq)
    rw [List.map_cons, List.mapM_cons, readChunk_printLine _ _ (h r (List.mem_cons_self ..)),
      ih hrs]
    rfl

/-- Every reader gets back exactly the records a defense printed. -/
theorem trace_round_trip (rs : List (Fp × ℕ)) (h : ∀ r ∈ rs, r.2 < 2 ^ 31) :
    readChunks (printTrace rs) = some (rs.map fun r => ⟨r.1, r.2⟩) ∧
      readFps (printTrace rs) = rs.map Prod.fst :=
  ⟨readChunks_printTrace rs h, readFps_printTrace rs h⟩

theorem trace_round_trip_two :
    readChunks (printTrace [(.filled 0, 0), (.filled 12, 2147483647)])
        = some [⟨.filled 0, 0⟩, ⟨.filled 12, 2147483647⟩] ∧
      readFps (printTrace [(.filled 0, 0), (.filled 12, 2147483647)])
        = [.filled 0, .filled 12] :=
  trace_round_trip [(.filled 0, 0), (.filled 12, 2147483647)] (by decide)

end FreqAnalysis
