import FreqAnalysis.LevelDb.Log

/-!
# Fragments in a log file

What `AddRecord` leaves in the file is a list of fragments laid out behind the
bytes already there. The reader's cursor takes them out again one by one, stops
at the first one that the file holds only in part, and drops the rest of a block
behind a fragment whose checksum does not match.
-/

namespace FreqAnalysis.LevelDb.Log

open Base Crc32c

abbrev Fragment := RecordType × List Byte

/-- The zeros in front of a header at the offset `off`. -/
def padding (off : ℕ) : ℕ :=
  if kBlockSize - off % kBlockSize < kHeaderSize then kBlockSize - off % kBlockSize else 0

theorem padding_spec (off : ℕ) :
    off % 32768 ≤ 32761 ∧ padding off = 0 ∨
      32761 < off % 32768 ∧ padding off = 32768 - off % 32768 := by
  rw [padding]
  split_ifs with hsmall
  · rw [kBlockSize_eq, kHeaderSize_eq] at hsmall
    exact Or.inr ⟨by omega, rfl⟩
  · rw [kBlockSize_eq, kHeaderSize_eq] at hsmall
    exact Or.inl ⟨by omega, rfl⟩

/-- The offset behind a fragment written at `off`. -/
def behind (off : ℕ) (f : Fragment) : ℕ := off + padding off + kHeaderSize + f.2.length

def layout : ℕ → List Fragment → List Byte
  | _, [] => []
  | off, f :: fs =>
    List.replicate (padding off) 0 ++ (physicalRecord f.1 f.2 ++ layout (behind off f) fs)

/-- Every fragment lies inside one block. -/
def Fits : ℕ → List Fragment → Prop
  | _, [] => True
  | off, f :: fs =>
    f.1 ≠ RecordType.zero ∧
      (off + padding off) % kBlockSize + kHeaderSize + f.2.length ≤ kBlockSize ∧
      Fits (behind off f) fs

@[simp] theorem rawRecord_length (crc : BitVec 32) (t : Byte) (s : List Byte) :
    (rawRecord crc t s).length = kHeaderSize + s.length := by
  simp [rawRecord, kHeaderSize]
  omega

@[simp] theorem physicalRecord_length (t : RecordType) (s : List Byte) :
    (physicalRecord t s).length = kHeaderSize + s.length := rawRecord_length _ _ _

theorem layout_cons_length (off : ℕ) (f : Fragment) (fs : List Fragment) :
    off + (layout off (f :: fs)).length = behind off f + (layout (behind off f) fs).length := by
  simp only [layout, List.length_append, List.length_replicate, physicalRecord_length, behind]
  omega

theorem layout_append (off : ℕ) (fs gs : List Fragment) :
    layout off (fs ++ gs) = layout off fs ++ layout (off + (layout off fs).length) gs := by
  induction fs generalizing off with
  | nil => simp [layout]
  | cons f fs ih =>
    rw [layout_cons_length, List.cons_append, layout, ih, layout]
    simp only [List.append_assoc]

theorem fits_append (off : ℕ) (fs gs : List Fragment) :
    Fits off (fs ++ gs) ↔ Fits off fs ∧ Fits (off + (layout off fs).length) gs := by
  induction fs generalizing off with
  | nil => simp [Fits, layout]
  | cons f fs ih =>
    rw [layout_cons_length, List.cons_append, Fits, Fits, ih]
    tauto

/-! ### What the writer lays out -/

/-- The fragments of a record, from its first one on or from a later one on. -/
inductive Fragments : Bool → List Byte → List Fragment → Prop
  | last (begin : Bool) (d : List Byte) : Fragments begin d [(fragmentType begin true, d)]
  | more (begin : Bool) (d e : List Byte) (fs : List Fragment) (h : Fragments false e fs) :
    Fragments begin (d ++ e) ((fragmentType begin false, d) :: fs)

structure Writer.Consistent (w : Writer) : Prop where
  offset_le : w.blockOffset ≤ kBlockSize
  offset_mod : w.blockOffset % kBlockSize = w.dest.length % kBlockSize

theorem Writer.create_consistent : Writer.create.Consistent := ⟨by decide, rfl⟩

theorem Writer.reopen_consistent (dest : List Byte) : (Writer.reopen dest).Consistent := by
  have hlt : dest.length % kBlockSize < kBlockSize := Nat.mod_lt _ (by decide)
  exact ⟨hlt.le, Nat.mod_mod _ _⟩

theorem Writer.Consistent.switchBlock {w : Writer} (h : w.Consistent) :
    w.switchBlock.dest = w.dest ++ List.replicate (padding w.dest.length) 0 ∧
      w.switchBlock.blockOffset = (w.dest.length + padding w.dest.length) % kBlockSize ∧
      w.switchBlock.blockOffset + kHeaderSize ≤ kBlockSize := by
  have hle := h.offset_le
  have hmod := h.offset_mod
  have hpad := padding_spec w.dest.length
  rw [Writer.switchBlock]
  split_ifs with hsmall
  · have hzeros : kBlockSize - w.blockOffset = padding w.dest.length := by
      simp only [kBlockSize_eq, kHeaderSize_eq] at *
      omega
    rw [hzeros]
    simp only [kBlockSize_eq, kHeaderSize_eq, true_and] at *
    omega
  · have hzeros : padding w.dest.length = 0 := by
      simp only [kBlockSize_eq, kHeaderSize_eq] at *
      omega
    rw [hzeros]
    simp only [kBlockSize_eq, kHeaderSize_eq, List.replicate_zero, List.append_nil, true_and] at *
    omega

theorem fragmentType_ne_zero (begin last : Bool) : fragmentType begin last ≠ .zero := by
  cases begin <;> cases last <;> decide

/-- The fuel counts the rounds: one for each byte and one for an empty first fragment. -/
theorem addLoop_layout (fuel : ℕ) (begin : Bool) (w : Writer) (data : List Byte)
    (hw : w.Consistent)
    (hfuel : data.length + 2 ≤ fuel ∨
      data.length + 1 ≤ fuel ∧ w.switchBlock.blockOffset + kHeaderSize < kBlockSize) :
    ∃ fs w', addLoop fuel begin w data = some w' ∧
      w'.dest = w.dest ++ layout w.dest.length fs ∧ w'.Consistent ∧
      Fits w.dest.length fs ∧ Fragments begin data fs := by
  induction fuel generalizing begin w data with
  | zero => omega
  | succ fuel ih =>
    obtain ⟨hdest, hoff, hroom⟩ := hw.switchBlock
    obtain ⟨avail, havail⟩ :
        ∃ avail, avail = kBlockSize - w.switchBlock.blockOffset - kHeaderSize := ⟨_, rfl⟩
    obtain ⟨n, hn⟩ : ∃ n, n = if data.length < avail then data.length else avail := ⟨_, rfl⟩
    have hnle : n ≤ data.length := by rw [hn]; split_ifs <;> omega
    have hnavail : n ≤ avail := by rw [hn]; split_ifs <;> omega
    have htake : (data.take n).length = n := by rw [List.length_take]; omega
    obtain ⟨t, ht⟩ : ∃ t, t = fragmentType begin (data.length == n) := ⟨_, rfl⟩
    obtain ⟨w₁, hw₁⟩ : ∃ w₁ : Writer, w₁ =
        ⟨w.switchBlock.dest ++ physicalRecord t (data.take n),
          w.switchBlock.blockOffset + kHeaderSize + (data.take n).length⟩ := ⟨_, rfl⟩
    have hemit : emitPhysicalRecord w.switchBlock t (data.take n) = some w₁ := by
      rw [emitPhysicalRecord, if_pos, hw₁]
      rw [htake]
      simp only [kBlockSize_eq, kHeaderSize_eq] at *
      omega
    have hround : addLoop (fuel + 1) begin w data =
        if 0 < data.length - n then addLoop fuel false w₁ (data.drop n) else some w₁ := by
      rw [addLoop, if_pos hw.offset_le]
      dsimp only
      rw [if_pos hroom, ← havail, ← hn, ← ht, hemit]
    have hdest₁ : w₁.dest = w.dest ++ layout w.dest.length [(t, data.take n)] := by
      rw [hw₁, hdest]
      simp [layout]
    have hlen₁ : w₁.dest.length = behind w.dest.length (t, data.take n) := by
      rw [hw₁, hdest, behind]
      simp only [List.length_append, List.length_replicate, physicalRecord_length]
      omega
    have hcons₁ : w₁.Consistent := by
      have hsum : w₁.blockOffset = w.switchBlock.blockOffset + kHeaderSize + n := by
        rw [hw₁]
        dsimp only
        rw [htake]
      rw [behind] at hlen₁
      dsimp only at hlen₁
      rw [htake] at hlen₁
      simp only [kBlockSize_eq, kHeaderSize_eq] at *
      exact ⟨by rw [kBlockSize_eq]; omega, by rw [kBlockSize_eq]; omega⟩
    have hfit₁ : Fits w.dest.length [(t, data.take n)] := by
      rw [Fits]
      dsimp only
      rw [← hoff, htake]
      simp only [Fits, and_true]
      refine ⟨ht ▸ fragmentType_ne_zero _ _, ?_⟩
      simp only [kBlockSize_eq, kHeaderSize_eq] at *
      omega
    rw [hround]
    split_ifs with hmore
    · -- the fragment filled its block, so the next one starts a fresh block
      have hfull : n = avail := by rw [hn] at hmore ⊢; split_ifs at hmore ⊢ <;> omega
      have hend : w₁.blockOffset = kBlockSize := by
        rw [hw₁]
        dsimp only
        rw [htake]
        simp only [kBlockSize_eq, kHeaderSize_eq] at *
        omega
      have hfresh : w₁.switchBlock.blockOffset = 0 := by
        rw [Writer.switchBlock]
        simp only [hend, Nat.sub_self, kHeaderSize_eq]
        rfl
      have hleft : (data.drop n).length = data.length - n := List.length_drop
      have hfuel' : (data.drop n).length + 2 ≤ fuel ∨ (data.drop n).length + 1 ≤ fuel ∧
          w₁.switchBlock.blockOffset + kHeaderSize < kBlockSize := by
        refine Or.inr ⟨?_, by rw [hfresh]; decide⟩
        simp only [kBlockSize_eq, kHeaderSize_eq] at *
        omega
      obtain ⟨fs, w', hrun, hdest', hcons', hfits', hfrag'⟩ :=
        ih false w₁ (data.drop n) hcons₁ hfuel'
      have hnot : (data.length == n) = false := by
        rw [beq_eq_false_iff_ne]
        omega
      refine ⟨(t, data.take n) :: fs, w', hrun, ?_, hcons', ?_, ?_⟩
      · have happ := layout_append w.dest.length [(t, data.take n)] fs
        rw [List.singleton_append] at happ
        rw [hdest', hdest₁, happ, List.append_assoc, List.length_append]
      · have happ := fits_append w.dest.length [(t, data.take n)] fs
        rw [List.singleton_append] at happ
        refine happ.mpr ⟨hfit₁, ?_⟩
        rw [hdest₁, List.length_append] at hfits'
        exact hfits'
      · have hsplit := Fragments.more begin (data.take n) (data.drop n) fs hfrag'
        rw [List.take_append_drop] at hsplit
        rw [ht, hnot]
        exact hsplit
    · have hall : n = data.length := by omega
      have hlast : (data.length == n) = true := by rw [hall]; exact beq_self_eq_true _
      refine ⟨[(t, data.take n)], w₁, rfl, hdest₁, hcons₁, hfit₁, ?_⟩
      rw [ht, hlast, hall, List.take_length]
      exact Fragments.last begin data

theorem addRecord_layout (w : Writer) (slice : List Byte) (hw : w.Consistent) :
    ∃ fs w', addRecord w slice = some w' ∧ w'.dest = w.dest ++ layout w.dest.length fs ∧
      w'.Consistent ∧ Fits w.dest.length fs ∧ Fragments true slice fs :=
  addLoop_layout _ true w slice hw (Or.inl le_rfl)

/-! ### The cursor -/

/-- The cursor stands at `pos` of `file` and has loaded the block that ends at `stop`. -/
structure Cursor.At (file : List Byte) (c : Cursor) (pos stop : ℕ) : Prop where
  aligned : stop % kBlockSize = 0
  le_stop : pos ≤ stop
  near : stop ≤ pos + kBlockSize
  le_length : pos ≤ file.length
  buffer_eq : c.buffer = (file.drop pos).take (stop - pos)
  file_eq : c.file = file.drop stop
  eof_eq : c.eof = decide (file.length < stop)

namespace Cursor

variable {file : List Byte} {c : Cursor} {pos stop : ℕ}

theorem at_create (file : List Byte) : At file ⟨file, [], false, 0⟩ 0 0 :=
  ⟨rfl, le_rfl, Nat.zero_le _, Nat.zero_le _, by simp, by simp, by simp⟩

theorem At.buffer_length (h : At file c pos stop) :
    c.buffer.length = min (stop - pos) (file.length - pos) := by
  rw [h.buffer_eq, List.length_take, List.length_drop]

theorem At.unread (h : At file c pos stop) :
    c.buffer.length + c.file.length = file.length - pos := by
  have hlen := h.buffer_length
  have hle := h.le_stop
  rw [hlen, h.file_eq, List.length_drop]
  omega

theorem At.fill (h : At file c pos stop) (hlen : stop ≤ file.length) :
    At file c.fill stop (stop + kBlockSize) := by
  have haligned := h.aligned
  have heof := h.eof_eq
  have hnot : ¬ file.length < stop := by omega
  refine ⟨?_, ?_, le_rfl, hlen, ?_, ?_, ?_⟩
  · rw [Nat.add_mod_right, haligned]
  · exact Nat.le_add_right _ _
  · rw [Cursor.fill, h.file_eq]
    simp
  · rw [Cursor.fill, h.file_eq]
    simp
  · rw [Cursor.fill, h.file_eq, heof]
    simp only [List.length_take, List.length_drop, hnot, decide_false]
    by_cases hshort : file.length < stop + kBlockSize
    · rw [if_pos (by omega), decide_eq_true hshort]
    · rw [if_neg (by omega), decide_eq_false hshort]

/-- A header in the file behind the padding is in the buffer when it is parsed. -/
theorem At.arrive (h : At file c pos stop)
    (hfit : (pos + padding pos) % kBlockSize + kHeaderSize ≤ kBlockSize)
    (hlen : pos + padding pos + kHeaderSize ≤ file.length) :
    ∃ c₁ stop₁, At file c₁ (pos + padding pos) stop₁ ∧
      stop₁ = pos + padding pos + (kBlockSize - (pos + padding pos) % kBlockSize) ∧
      ∀ checksum initialOffset result, c.readPhysicalRecord checksum initialOffset result =
        c₁.parseRecord checksum initialOffset result := by
  have hblen := h.buffer_length
  have haligned := h.aligned
  have hle := h.le_stop
  have hnear := h.near
  have hpadding := padding_spec pos
  by_cases hshort : c.buffer.length < kHeaderSize
  · -- the rest of the loaded block is a trailer
    have hq : pos + padding pos = stop := by
      simp only [kBlockSize_eq, kHeaderSize_eq] at *
      omega
    have hstop : stop ≤ file.length := by omega
    have hfill := h.fill hstop
    have heof : c.eof = false := by
      rw [h.eof_eq]
      exact decide_eq_false (by omega)
    have hfull : ¬ c.fill.buffer.length < kHeaderSize := by
      rw [hfill.buffer_length]
      simp only [kBlockSize_eq, kHeaderSize_eq] at *
      omega
    rw [hq]
    refine ⟨c.fill, stop + kBlockSize, hfill, by rw [haligned, Nat.sub_zero], ?_⟩
    intro checksum initialOffset result
    rw [readPhysicalRecord, if_pos hshort, heof, if_neg (by decide)]
    dsimp only
    rw [if_neg hfull]
  · have hpad : padding pos = 0 := by
      simp only [kBlockSize_eq, kHeaderSize_eq] at *
      omega
    rw [hpad, Nat.add_zero]
    refine ⟨c, stop, h, ?_, ?_⟩
    · simp only [kBlockSize_eq, kHeaderSize_eq] at *
      omega
    · intro checksum initialOffset result
      rw [readPhysicalRecord, if_neg hshort]

/-- A file that ends inside the padding or inside a header. -/
theorem At.no_header (h : At file c pos stop)
    (hlen : file.length < pos + padding pos + kHeaderSize) :
    ∃ c', ∀ checksum initialOffset result,
      c.readPhysicalRecord checksum initialOffset result = (kEof, result, c', []) := by
  have hblen := h.buffer_length
  have haligned := h.aligned
  have hle := h.le_stop
  have hnear := h.near
  have hpos := h.le_length
  have hpadding := padding_spec pos
  have hshort : c.buffer.length < kHeaderSize := by
    simp only [kBlockSize_eq, kHeaderSize_eq] at *
    omega
  by_cases hend : file.length < stop
  · have heof : c.eof = true := by
      rw [h.eof_eq]
      exact decide_eq_true hend
    refine ⟨{ c with buffer := [] }, ?_⟩
    intro checksum initialOffset result
    rw [readPhysicalRecord, if_pos hshort, heof, if_pos rfl]
  · have heof : c.eof = false := by
      rw [h.eof_eq]
      exact decide_eq_false hend
    have hfill := h.fill (by omega)
    have hshort' : c.fill.buffer.length < kHeaderSize := by
      rw [hfill.buffer_length]
      simp only [kBlockSize_eq, kHeaderSize_eq] at *
      omega
    refine ⟨{ c.fill with buffer := [] }, ?_⟩
    intro checksum initialOffset result
    rw [readPhysicalRecord, if_pos hshort, heof, if_neg (by decide)]
    dsimp only
    rw [if_pos hshort']

/-! ### Headers -/

theorem length_field (n : ℕ) (hn : n < 2 ^ 16) :
    (byteOf (n &&& 0xff)).val ||| ((byteOf (n >>> 8)).val <<< 8) = n := by
  have hmask : n &&& 0xff = n % 256 := Nat.and_two_pow_sub_one_eq_mod n 8
  have hshift : n >>> 8 = n / 256 := Nat.shiftRight_eq_div_pow n 8
  have hlow : n % 256 < 2 ^ 8 := Nat.mod_lt _ (by decide)
  have hor := Nat.two_pow_add_eq_or_of_lt hlow (n / 256)
  rw [hmask, hshift, val_byteOf_of_lt _ hlow, val_byteOf_of_lt _ (by omega), Nat.or_comm,
    Nat.shiftLeft_eq, Nat.mul_comm, ← hor]
  omega

/-- The fields of a header, whatever the buffer holds behind it. -/
theorem header_fields (crc : BitVec 32) (t : Byte) (n : ℕ) (hn : n < 2 ^ 16) (more : List Byte)
    (header : List Byte)
    (h : header = encodeFixed32 crc.toNat ++ byteOf (n &&& 0xff) :: byteOf (n >>> 8) :: t :: more) :
    (header.getD 4 0).val ||| ((header.getD 5 0).val <<< 8) = n ∧ header.getD 6 0 = t ∧
      BitVec.ofNat 32 (decodeFixed32 header) = crc ∧ header.drop 6 = t :: more ∧
      header.length = kHeaderSize + more.length := by
  have hlen : (encodeFixed32 crc.toNat).length = 4 := encodeFixed32_length _
  have hget : ∀ k : ℕ, header.getD (4 + k) 0 =
      (byteOf (n &&& 0xff) :: byteOf (n >>> 8) :: t :: more).getD k 0 := by
    intro k
    rw [h, List.getD_append_right _ _ _ _ (by omega), hlen, Nat.add_sub_cancel_left]
  have hdecode : decodeFixed32 header = crc.toNat := by
    rw [h]
    exact decodeFixed32_encodeFixed32 _ _ crc.isLt
  refine ⟨?_, hget 2, ?_, ?_, ?_⟩
  · rw [hget 0, hget 1]
    exact length_field n hn
  · rw [hdecode, BitVec.ofNat_toNat, BitVec.setWidth_eq]
  · rw [h, List.drop_append, hlen, List.drop_eq_nil_of_le (by omega)]
    rfl
  · rw [h, List.length_append, hlen]
    simp only [List.length_cons, kHeaderSize_eq]
    omega

variable {checksum : Bool} {crc : BitVec 32} {t : Byte} {s rest : List Byte}

/-- A reader that starts at the beginning of the file reports everything it drops. -/
theorem reportDrop_zero (c : Cursor) (bytes : ℕ) (reason : String) :
    reportDrop 0 c bytes reason = [(bytes, reason)] := by
  have hnonneg := Int.emod_nonneg ((c.endOfBufferOffset : ℤ) - c.buffer.length - bytes)
    (show (2 ^ 64 : ℤ) ≠ 0 by norm_num)
  rw [reportDrop, if_pos (by simpa using hnonneg)]

theorem parseRecord_raw (hbuf : c.buffer = rawRecord crc t s ++ rest) (hs : s.length < 2 ^ 16)
    (ht : ¬ (t = 0 ∧ s = [])) (result : List Byte) :
    c.parseRecord checksum 0 result =
      if checksum ∧ value (t :: s) ≠ unmask crc then
        (kBadRecord, result, { c with buffer := [] }, [(c.buffer.length, "checksum mismatch")])
      else (charToUnsigned t, s, { c with buffer := rest }, []) := by
  have hshape : c.buffer = encodeFixed32 crc.toNat ++
      byteOf (s.length &&& 0xff) :: byteOf (s.length >>> 8) :: t :: (s ++ rest) := by
    rw [hbuf, rawRecord]
    simp
  obtain ⟨hlength, htype, hcrc, hdrop, hlen⟩ :=
    header_fields crc t s.length hs (s ++ rest) c.buffer hshape
  have hroom : ¬ kHeaderSize + s.length > c.buffer.length := by
    rw [hlen, List.length_append]
    omega
  have hcode : ¬ (charToUnsigned t = 0 ∧ s.length = 0) := by
    rintro ⟨hzero, hnil⟩
    have hval : t.val = 0 := by
      rw [charToUnsigned] at hzero
      split_ifs at hzero with hsmall
      · exact hzero
      · omega
    exact ht ⟨Fin.ext hval, List.eq_nil_of_length_eq_zero hnil⟩
  have hdata : (c.buffer.drop 6).take (1 + s.length) = t :: s := by
    rw [hdrop, Nat.add_comm, List.take_succ_cons, List.take_left]
  have hpayload : (c.buffer.drop kHeaderSize).take s.length = s := by
    have hseven : c.buffer.drop kHeaderSize = (c.buffer.drop 6).drop 1 := by
      rw [List.drop_drop]
      rfl
    rw [hseven, hdrop, List.drop_one, List.tail_cons, List.take_left]
  have hrest : c.buffer.drop (kHeaderSize + s.length) = rest := by
    rw [hbuf]
    exact List.drop_left' (rawRecord_length _ _ _)
  rw [parseRecord]
  simp only [hlength, htype, hcrc, hdata, hpayload, hrest]
  rw [if_neg hroom, if_neg hcode]
  simp [reportDrop_zero]

/-- A payload cut off by the end of the file. -/
theorem parseRecord_torn (more : List Byte)
    (hbuf : c.buffer = encodeFixed32 crc.toNat ++
      byteOf (s.length &&& 0xff) :: byteOf (s.length >>> 8) :: t :: more)
    (hs : s.length < 2 ^ 16) (hmore : more.length < s.length) (heof : c.eof = true)
    (initialOffset : ℕ) (result : List Byte) :
    c.parseRecord checksum initialOffset result = (kEof, result, { c with buffer := [] }, []) := by
  obtain ⟨hlength, -, -, -, hlen⟩ := header_fields crc t s.length hs more c.buffer hbuf
  have hroom : kHeaderSize + s.length > c.buffer.length := by omega
  rw [parseRecord]
  simp only [hlength]
  rw [if_pos hroom, heof, if_pos rfl]

/-! ### Reading what was laid out -/

/-- A fragment whose bytes are all in the file, with any checksum in its header. -/
theorem At.read_raw (h : At file c pos stop) (checksum : Bool) (ht : ¬ (t = 0 ∧ s = []))
    (hfit : (pos + padding pos) % kBlockSize + kHeaderSize + s.length ≤ kBlockSize)
    (hfile : file.drop pos = List.replicate (padding pos) 0 ++ (rawRecord crc t s ++ rest)) :
    ∃ c₁ stop₁, At file c₁ (pos + padding pos) stop₁ ∧
      pos + padding pos + kHeaderSize + s.length ≤ stop₁ ∧
      ∀ result, c.readPhysicalRecord checksum 0 result =
        if checksum ∧ value (t :: s) ≠ unmask crc then
          (kBadRecord, result, { c₁ with buffer := [] },
            [(c₁.buffer.length, "checksum mismatch")])
        else
          (charToUnsigned t, s,
            { c₁ with buffer := c₁.buffer.drop (kHeaderSize + s.length) }, []) := by
  have hlen : file.length = pos + padding pos + (kHeaderSize + s.length) + rest.length := by
    have hle := h.le_length
    have htotal := congrArg List.length hfile
    simp only [List.length_drop, List.length_append, List.length_replicate, rawRecord_length]
      at htotal
    omega
  obtain ⟨c₁, stop₁, h₁, hstop₁, hread⟩ := h.arrive (by omega) (by omega)
  have hend : pos + padding pos + kHeaderSize + s.length ≤ stop₁ := by omega
  have hdrop : file.drop (pos + padding pos) = rawRecord crc t s ++ rest := by
    rw [← List.drop_drop, hfile, List.drop_left' List.length_replicate]
  have hbuf : c₁.buffer = rawRecord crc t s ++
      rest.take (stop₁ - (pos + padding pos) - (kHeaderSize + s.length)) := by
    rw [h₁.buffer_eq, hdrop, List.take_append, rawRecord_length,
      List.take_of_length_le (by rw [rawRecord_length]; omega)]
  have hs : s.length < 2 ^ 16 := by
    simp only [kBlockSize_eq, kHeaderSize_eq] at hfit
    omega
  have hrest : c₁.buffer.drop (kHeaderSize + s.length) =
      rest.take (stop₁ - (pos + padding pos) - (kHeaderSize + s.length)) := by
    rw [hbuf]
    exact List.drop_left' (rawRecord_length _ _ _)
  refine ⟨c₁, stop₁, h₁, hend, ?_⟩
  intro result
  rw [hread, hrest, parseRecord_raw hbuf hs ht]

theorem value_typed (t : RecordType) (s : List Byte) :
    value (byteOf t.code :: s) = unmask (mask (extend (typeCrc t) s)) := by
  rw [unmask_mask, typeCrc, value, value, extend_append]
  rfl

theorem charToUnsigned_code (t : RecordType) : charToUnsigned (byteOf t.code) = t.code := by
  cases t <;> decide

theorem byteOf_code_ne_zero {t : RecordType} (h : t ≠ .zero) : byteOf t.code ≠ 0 := by
  revert h
  cases t <;> decide

/-- The cursor behind a fragment of its block. -/
theorem At.advance (h : At file c pos stop) (n : ℕ) (hstop : pos + n ≤ stop)
    (hlen : pos + n ≤ file.length) :
    At file { c with buffer := c.buffer.drop n } (pos + n) stop := by
  have hnear := h.near
  refine ⟨h.aligned, hstop, by omega, hlen, ?_, h.file_eq, h.eof_eq⟩
  rw [h.buffer_eq, List.drop_take, List.drop_drop, Nat.sub_sub]

theorem At.read_fragment (h : At file c pos stop) (f : Fragment) (hf : f.1 ≠ .zero)
    (hfit : (pos + padding pos) % kBlockSize + kHeaderSize + f.2.length ≤ kBlockSize)
    (hfile : file.drop pos =
      List.replicate (padding pos) 0 ++ (physicalRecord f.1 f.2 ++ rest)) :
    ∃ c' stop', At file c' (behind pos f) stop' ∧
      ∀ result, c.readPhysicalRecord checksum 0 result = (f.1.code, f.2, c', []) := by
  have hlen : behind pos f ≤ file.length := by
    have hle := h.le_length
    have htotal := congrArg List.length hfile
    simp only [List.length_drop, List.length_append, List.length_replicate,
      physicalRecord_length] at htotal
    rw [behind]
    omega
  obtain ⟨c₁, stop₁, h₁, hend, hread⟩ :=
    h.read_raw checksum (fun hzero => byteOf_code_ne_zero hf hzero.1) hfit hfile
  have hadv := h₁.advance (kHeaderSize + f.2.length) (by omega)
    (by rw [behind] at hlen; omega)
  have hbehind : pos + padding pos + (kHeaderSize + f.2.length) = behind pos f := by
    rw [behind]
    omega
  rw [hbehind] at hadv
  refine ⟨_, stop₁, hadv, ?_⟩
  intro result
  rw [hread, if_neg, charToUnsigned_code]
  rintro ⟨-, hne⟩
  exact hne (value_typed f.1 f.2)

/-- A checksum that does not match costs the rest of the block. -/
theorem At.read_damaged (h : At file c pos stop) (ht : ¬ (t = 0 ∧ s = []))
    (hfit : (pos + padding pos) % kBlockSize + kHeaderSize + s.length ≤ kBlockSize)
    (hfile : file.drop pos = List.replicate (padding pos) 0 ++ (rawRecord crc t s ++ rest))
    (hcrc : value (t :: s) ≠ unmask crc) :
    ∃ c' stop' dropped, At file c' (min stop' file.length) stop' ∧
      pos + padding pos + kHeaderSize + s.length ≤ stop' ∧
      stop' ≤ pos + padding pos + kBlockSize ∧
      ∀ result, c.readPhysicalRecord true 0 result =
        (kBadRecord, result, c', [(dropped, "checksum mismatch")]) := by
  obtain ⟨c₁, stop₁, h₁, hend, hread⟩ := h.read_raw true ht hfit hfile
  have hle₁ := h₁.le_length
  have hnear₁ := h₁.near
  refine ⟨{ c₁ with buffer := [] }, stop₁, c₁.buffer.length, ?_, hend, hnear₁, ?_⟩
  · refine ⟨h₁.aligned, Nat.min_le_left _ _, by omega, Nat.min_le_right _ _, ?_, h₁.file_eq,
      h₁.eof_eq⟩
    symm
    apply List.eq_nil_of_length_eq_zero
    rw [List.length_take, List.length_drop]
    omega
  · intro result
    rw [hread, if_pos ⟨rfl, hcrc⟩]

/-- A file that ends inside a fragment or in front of one. -/
theorem At.read_torn (h : At file c pos stop) (f : Fragment)
    (hfit : (pos + padding pos) % kBlockSize + kHeaderSize + f.2.length ≤ kBlockSize) (m : ℕ)
    (hm : m < padding pos + (kHeaderSize + f.2.length))
    (hfile : file.drop pos =
      (List.replicate (padding pos) 0 ++ (physicalRecord f.1 f.2 ++ rest)).take m) :
    ∃ c', ∀ result, c.readPhysicalRecord checksum 0 result = (kEof, result, c', []) := by
  have hlen : file.length = pos + m := by
    have hle := h.le_length
    have htotal := congrArg List.length hfile
    simp only [List.length_drop, List.length_take, List.length_append, List.length_replicate,
      physicalRecord_length] at htotal
    omega
  by_cases hheader : m < padding pos + kHeaderSize
  · obtain ⟨c', hread⟩ := h.no_header (by omega)
    exact ⟨c', fun result => hread checksum 0 result⟩
  · obtain ⟨c₁, stop₁, h₁, hstop₁, hread⟩ := h.arrive (by omega) (by omega)
    have heof : c₁.eof = true := by
      rw [h₁.eof_eq]
      exact decide_eq_true (by omega)
    have hdrop : file.drop (pos + padding pos) =
        (physicalRecord f.1 f.2).take (m - padding pos) := by
      rw [← List.drop_drop, hfile, List.take_append, List.length_replicate,
        List.take_of_length_le (by rw [List.length_replicate]; omega),
        List.drop_left' List.length_replicate, List.take_append_of_le_length]
      rw [physicalRecord_length]
      omega
    have hbuf : c₁.buffer = (physicalRecord f.1 f.2).take (m - padding pos) := by
      rw [h₁.buffer_eq, hdrop]
      apply List.take_of_length_le
      rw [List.length_take, physicalRecord_length]
      omega
    have hs : f.2.length < 2 ^ 16 := by
      simp only [kBlockSize_eq, kHeaderSize_eq] at hfit
      omega
    obtain ⟨k, hk⟩ : ∃ k, m - padding pos = 4 + 3 + k :=
      ⟨m - padding pos - 7, by rw [kHeaderSize_eq] at hheader; omega⟩
    have hshape : c₁.buffer = encodeFixed32 (mask (extend (typeCrc f.1) f.2)).toNat ++
        byteOf (f.2.length &&& 0xff) :: byteOf (f.2.length >>> 8) :: byteOf f.1.code ::
          f.2.take k := by
      rw [hbuf, hk, physicalRecord, rawRecord, List.take_append, encodeFixed32_length,
        List.take_of_length_le (by rw [encodeFixed32_length]; omega)]
      rw [show 4 + 3 + k - 4 = k + 1 + 1 + 1 by omega]
      rfl
    have hmore : (f.2.take k).length < f.2.length := by
      rw [List.length_take]
      rw [kHeaderSize_eq] at hm
      omega
    refine ⟨{ c₁ with buffer := [] }, ?_⟩
    intro result
    rw [hread, parseRecord_torn _ hshape hs hmore heof]

end Cursor

end FreqAnalysis.LevelDb.Log
