import FreqAnalysis.LevelDb.Crc32c

/-!
# The log of a database

`db/log_writer.cc` and `db/log_reader.cc`. A log is a sequence of blocks of
32 KB. A record is cut into fragments that do not cross a block; each fragment
stands behind a header with its checksum, its length and its type, and a block's
last bytes stay zero when no header fits there.

The writer is a function of the bytes written so far; a failed assertion is
`none`. The reader keeps a cursor with the block it has loaded, and returns what
it tells its reporter.
-/

namespace FreqAnalysis.LevelDb.Log

open Base Crc32c

inductive RecordType
  | zero | full | first | middle | last
deriving DecidableEq

def RecordType.code : RecordType → ℕ
  | zero => 0
  | full => 1
  | first => 2
  | middle => 3
  | last => 4

def kBlockSize : ℕ := 32768

def kHeaderSize : ℕ := 4 + 2 + 1

theorem kBlockSize_eq : kBlockSize = 32768 := rfl

theorem kHeaderSize_eq : kHeaderSize = 7 := rfl

/-! ### The writer -/

structure Writer where
  dest : List Byte
  blockOffset : ℕ

/-- `Writer(dest)` on a file just created. -/
def Writer.create : Writer := ⟨[], 0⟩

/-- `Writer(dest, dest_length)` on a file to be appended to. -/
def Writer.reopen (dest : List Byte) : Writer := ⟨dest, dest.length % kBlockSize⟩

/-- A header with the checksum `crc` and the type byte `t`, and its payload. -/
def rawRecord (crc : BitVec 32) (t : Byte) (s : List Byte) : List Byte :=
  encodeFixed32 crc.toNat ++
    byteOf (s.length &&& 0xff) :: byteOf (s.length >>> 8) :: t :: s

/-- `type_crc_[t]` -/
def typeCrc (t : RecordType) : BitVec 32 := value [byteOf t.code]

def physicalRecord (t : RecordType) (s : List Byte) : List Byte :=
  rawRecord (mask (extend (typeCrc t) s)) (byteOf t.code) s

def emitPhysicalRecord (w : Writer) (t : RecordType) (s : List Byte) : Option Writer :=
  if s.length ≤ 0xffff ∧ w.blockOffset + kHeaderSize + s.length ≤ kBlockSize then
    some ⟨w.dest ++ physicalRecord t s, w.blockOffset + kHeaderSize + s.length⟩
  else none

/-- The trailer of a block is filled when no header fits into it. -/
def Writer.switchBlock (w : Writer) : Writer :=
  let leftover := kBlockSize - w.blockOffset
  if leftover < kHeaderSize then ⟨w.dest ++ List.replicate leftover 0, 0⟩ else w

def fragmentType (begin last : Bool) : RecordType :=
  if begin && last then .full else if begin then .first else if last then .last else .middle

/-- The loop of `AddRecord` on the part of the record not yet written. -/
def addLoop : ℕ → Bool → Writer → List Byte → Option Writer
  | 0, _, _, _ => none
  | fuel + 1, begin, w, data =>
    if w.blockOffset ≤ kBlockSize then
      let w := w.switchBlock
      if w.blockOffset + kHeaderSize ≤ kBlockSize then
        let avail := kBlockSize - w.blockOffset - kHeaderSize
        let fragmentLength := if data.length < avail then data.length else avail
        let last := data.length == fragmentLength
        match emitPhysicalRecord w (fragmentType begin last) (data.take fragmentLength) with
        | none => none
        | some w =>
          if 0 < data.length - fragmentLength then
            addLoop fuel false w (data.drop fragmentLength)
          else some w
      else none
    else none

-- only the first fragment can be empty, so the data bounds the number of rounds
def addRecord (w : Writer) (slice : List Byte) : Option Writer :=
  addLoop (slice.length + 2) true w slice

/-! ### The reader -/

structure Cursor where
  /-- the part of the file not yet read -/
  file : List Byte
  buffer : List Byte
  eof : Bool
  endOfBufferOffset : ℕ

/-- The arguments of `Reporter::Corruption`. -/
abbrev Report := ℕ × String

def kEof : ℕ := 5

def kBadRecord : ℕ := 6

/-- `ReportDrop`, after the dropped bytes have been taken from the buffer. A record that was
begun before the first block read makes the `uint64_t` difference wrap. -/
def reportDrop (initialOffset : ℕ) (c : Cursor) (bytes : ℕ) (reason : String) : List Report :=
  if (initialOffset : ℤ) ≤ ((c.endOfBufferOffset : ℤ) - c.buffer.length - bytes) % 2 ^ 64 then
    [(bytes, reason)]
  else []

/-- A read of one block; fewer bytes than asked for are the end of the file. -/
def Cursor.fill (c : Cursor) : Cursor :=
  let buffer := c.file.take kBlockSize
  { file := c.file.drop kBlockSize
    buffer := buffer
    eof := if buffer.length < kBlockSize then true else c.eof
    endOfBufferOffset := c.endOfBufferOffset + buffer.length }

/-- The type is read through a plain `char`. -/
def charToUnsigned (b : Byte) : ℕ := if b.val < 128 then b.val else 2 ^ 32 - 256 + b.val

/-- `ReadPhysicalRecord` once the buffer holds a header. -/
def Cursor.parseRecord (checksum : Bool) (initialOffset : ℕ) (c : Cursor) (result : List Byte) :
    ℕ × List Byte × Cursor × List Report :=
  let header := c.buffer
  let a := (header.getD 4 0).val
  let b := (header.getD 5 0).val
  let type := charToUnsigned (header.getD 6 0)
  let length := a ||| (b <<< 8)
  let cleared : Cursor := { c with buffer := [] }
  if kHeaderSize + length > c.buffer.length then
    if c.eof then (kEof, result, cleared, [])
    else (kBadRecord, result, cleared,
      reportDrop initialOffset cleared c.buffer.length "bad record length")
  else if type = 0 ∧ length = 0 then (kBadRecord, result, cleared, [])
  else if checksum ∧ value ((header.drop 6).take (1 + length)) ≠
      unmask (BitVec.ofNat 32 (decodeFixed32 header)) then
    (kBadRecord, result, cleared,
      reportDrop initialOffset cleared c.buffer.length "checksum mismatch")
  else
    let rest : Cursor := { c with buffer := c.buffer.drop (kHeaderSize + length) }
    if rest.endOfBufferOffset - rest.buffer.length - kHeaderSize - length < initialOffset then
      (kBadRecord, [], rest, [])
    else (type, (header.drop kHeaderSize).take length, rest, [])

/-- A block that was read and still holds no header ends the file, so the loop
of `ReadPhysicalRecord` is left after at most one more round. -/
def Cursor.readPhysicalRecord (checksum : Bool) (initialOffset : ℕ) (c : Cursor)
    (result : List Byte) : ℕ × List Byte × Cursor × List Report :=
  if c.buffer.length < kHeaderSize then
    if c.eof then (kEof, result, { c with buffer := [] }, [])
    else
      let c := c.fill
      if c.buffer.length < kHeaderSize then (kEof, result, { c with buffer := [] }, [])
      else c.parseRecord checksum initialOffset result
  else c.parseRecord checksum initialOffset result

structure Reader where
  cursor : Cursor
  checksum : Bool
  lastRecordOffset : ℕ
  initialOffset : ℕ
  resyncing : Bool
  reports : List Report

def Reader.create (file : List Byte) (checksum : Bool) (initialOffset : ℕ) : Reader :=
  { cursor := ⟨file, [], false, 0⟩
    checksum := checksum
    lastRecordOffset := 0
    initialOffset := initialOffset
    resyncing := decide (0 < initialOffset)
    reports := [] }

def Reader.reportCorruption (r : Reader) (bytes : ℕ) (reason : String) : Reader :=
  { r with reports := r.reports ++ reportDrop r.initialOffset r.cursor bytes reason }

def Reader.skipToInitialBlock (r : Reader) : Reader :=
  let offsetInBlock := r.initialOffset % kBlockSize
  let start := r.initialOffset - offsetInBlock
  let start := if offsetInBlock > kBlockSize - 6 then start + kBlockSize else start
  { r with cursor := { r.cursor with
      file := r.cursor.file.drop start
      endOfBufferOffset := start } }

/-- A fragment that starts a record while another one is being assembled. -/
def Reader.dropPartial (r : Reader) (inFragmentedRecord : Bool) (scratch : List Byte)
    (reason : String) : Reader :=
  if inFragmentedRecord && !scratch.isEmpty then r.reportCorruption scratch.length reason else r

/-- The loop of `ReadRecord`: `none` inside is the return value `false`. -/
def Reader.readLoop : ℕ → Reader → Bool → List Byte → ℕ → List Byte →
    Option (Option (List Byte) × Reader)
  | 0, _, _, _, _, _ => none
  | fuel + 1, r, inFragmentedRecord, scratch, prospective, fragment =>
    match r.cursor.readPhysicalRecord r.checksum r.initialOffset fragment with
    | (recordType, fragment, cursor, reports) =>
      let r : Reader := { r with cursor := cursor, reports := r.reports ++ reports }
      let offset := cursor.endOfBufferOffset - cursor.buffer.length - kHeaderSize - fragment.length
      if r.resyncing && recordType == RecordType.middle.code then
        Reader.readLoop fuel r inFragmentedRecord scratch prospective fragment
      else if r.resyncing && recordType == RecordType.last.code then
        Reader.readLoop fuel { r with resyncing := false } inFragmentedRecord scratch prospective
          fragment
      else
        let r : Reader := { r with resyncing := false }
        if recordType = RecordType.full.code then
          let r := r.dropPartial inFragmentedRecord scratch "partial record without end(1)"
          some (some fragment, { r with lastRecordOffset := offset })
        else if recordType = RecordType.first.code then
          let r := r.dropPartial inFragmentedRecord scratch "partial record without end(2)"
          Reader.readLoop fuel r true fragment offset fragment
        else if recordType = RecordType.middle.code then
          if inFragmentedRecord then
            Reader.readLoop fuel r true (scratch ++ fragment) prospective fragment
          else
            Reader.readLoop fuel
              (r.reportCorruption fragment.length "missing start of fragmented record(1)")
              false scratch prospective fragment
        else if recordType = RecordType.last.code then
          if inFragmentedRecord then
            some (some (scratch ++ fragment), { r with lastRecordOffset := prospective })
          else
            Reader.readLoop fuel
              (r.reportCorruption fragment.length "missing start of fragmented record(2)")
              false scratch prospective fragment
        else if recordType = kEof then some (none, r)
        else if recordType = kBadRecord then
          if inFragmentedRecord then
            Reader.readLoop fuel (r.reportCorruption scratch.length "error in middle of record")
              false [] prospective fragment
          else Reader.readLoop fuel r false scratch prospective fragment
        else
          Reader.readLoop fuel
            (r.reportCorruption (fragment.length + if inFragmentedRecord then scratch.length else 0)
              ("unknown record type " ++ toString recordType))
            false [] prospective fragment

-- every round that goes on takes a header out of the bytes not yet consumed
def Reader.readRecord (r : Reader) : Option (Option (List Byte) × Reader) :=
  let r := if r.lastRecordOffset < r.initialOffset then r.skipToInitialBlock else r
  Reader.readLoop (r.cursor.buffer.length + r.cursor.file.length + 1) r false [] 0 []

/-- The records up to the first `ReadRecord` that returns `false`. -/
def Reader.readAll : ℕ → Reader → Option (List (List Byte) × Reader)
  | 0, _ => none
  | fuel + 1, r =>
    match r.readRecord with
    | none => none
    | some (none, r) => some ([], r)
    | some (some record, r) =>
      match Reader.readAll fuel r with
      | none => none
      | some (records, r) => some (record :: records, r)

/-- All records of a log file and what was reported on the way. -/
def readLog (file : List Byte) (checksum : Bool) (initialOffset : ℕ) :
    Option (List (List Byte) × List Report) :=
  match Reader.readAll (file.length + 1) (Reader.create file checksum initialOffset) with
  | none => none
  | some (records, r) => some (records, r.reports)

end FreqAnalysis.LevelDb.Log
