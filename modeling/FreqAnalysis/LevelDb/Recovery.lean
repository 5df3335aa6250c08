import FreqAnalysis.LevelDb.LogCrash
import FreqAnalysis.LevelDb.WriteBatch

/-!
# Recovery of a database from its log

`DBImpl::RecoverLogFile`: each record of the log is a batch, and is inserted
into a memtable; a memtable that has outgrown the write buffer goes to a table
file. Writing a table file does not fail.
-/

namespace FreqAnalysis.LevelDb

open Base Log

structure Recovery where
  status : Option String
  mem : Option MemTable
  /-- the memtables written to table files -/
  level0 : List MemTable
  maxSequence : ℕ

/-- The options `paranoid_checks` and `reuse_logs` (for the last log), and when a
memtable has outgrown `write_buffer_size`. -/
structure RecoveryOptions where
  paranoidChecks : Bool
  reuseLogs : Bool
  outgrown : MemTable → Bool

variable (o : RecoveryOptions)

/-- `LogReporter::Corruption` -/
def Recovery.corruption (st : Recovery) (reason : String) : Recovery :=
  if o.paranoidChecks && st.status.isNone then { st with status := some reason } else st

def maybeIgnoreError (status : Option String) : Option String :=
  if o.paranoidChecks then status else none

/-- `InsertInto` for one record, and what follows it when it is OK. -/
def Recovery.insert (st : Recovery) (batch : WriteBatch) : Recovery :=
  match batch.insertInto (st.mem.getD []) with
  | (status, mem) =>
    let st := { st with status := maybeIgnoreError o status, mem := some mem }
    if st.status.isSome then st
    else
      let lastSeq := (((batch.sequence : ℤ) + batch.count - 1) % 2 ^ 64).toNat
      let st := { st with maxSequence := if lastSeq > st.maxSequence then lastSeq else st.maxSequence }
      if o.outgrown mem then { st with level0 := st.level0 ++ [mem], mem := none } else st

def recoverLoop : ℕ → Reader → Recovery → Option Recovery
  | 0, _, _ => none
  | fuel + 1, r, st =>
    match r.readRecord with
    | none => none
    | some (result, r') =>
      let st := (r'.reports.drop r.reports.length).foldl (fun st p => st.corruption o p.2) st
      match result with
      | none => some st
      | some record =>
        if st.status.isSome then some st
        else if h : record.length < WriteBatch.kHeader then
          recoverLoop fuel r' (st.corruption o "log record too small")
        else
          let st := st.insert o ⟨record, not_lt.mp h⟩
          if st.status.isSome then some st else recoverLoop fuel r' st

/-- What becomes of the last memtable: it is kept with the log or written out. -/
def Recovery.finish (st : Recovery) : Recovery :=
  if st.status.isSome then { st with mem := none }
  else if o.reuseLogs && st.level0.isEmpty then { st with mem := some (st.mem.getD []) }
  else { st with level0 := st.level0 ++ st.mem.toList, mem := none }

def recoverLogFile (file : List Byte) (maxSequence : ℕ) : Option Recovery :=
  match recoverLoop o (file.length + 1) (Reader.create file true 0) ⟨none, none, [], maxSequence⟩ with
  | none => none
  | some st => some (st.finish o)

/-- The entries recovered, in the order of their insertion. -/
def Recovery.entries (st : Recovery) : MemTable := st.level0.flatten ++ st.mem.getD []

/-! ### Reports only accumulate -/

theorem reportCorruption_reports (r : Reader) (bytes : ℕ) (reason : String) :
    r.reports <+: (r.reportCorruption bytes reason).reports := List.prefix_append _ _

theorem dropPartial_reports (r : Reader) (b : Bool) (scratch : List Byte) (reason : String) :
    r.reports <+: (r.dropPartial b scratch reason).reports := by
  rw [Reader.dropPartial]
  split_ifs
  · exact reportCorruption_reports r _ _
  · exact List.prefix_rfl

theorem readLoop_reports (fuel : ℕ) (r : Reader) (b : Bool) (scratch : List Byte)
    (prospective : ℕ) (fragment : List Byte) (out : Option (List Byte)) (r' : Reader)
    (h : Reader.readLoop fuel r b scratch prospective fragment = some (out, r')) :
    r.reports <+: r'.reports := by
  induction fuel generalizing r b scratch prospective fragment with
  | zero => simp [Reader.readLoop] at h
  | succ fuel ih =>
    rw [Reader.readLoop] at h
    obtain ⟨recordType, fragment', cursor, reports, hread⟩ :
        ∃ a b c d, r.cursor.readPhysicalRecord r.checksum r.initialOffset fragment = (a, b, c, d) :=
      ⟨_, _, _, _, rfl⟩
    rw [hread] at h
    have hgrow : r.reports <+: r.reports ++ reports := List.prefix_append _ _
    refine hgrow.trans ?_
    dsimp only at h
    have hreturn : ∀ {r₀ r₁ : Reader} {out₀ : Option (List Byte)},
        some (out₀, r₁) = some (out, r') → r₀.reports <+: r₁.reports →
        r₀.reports <+: r'.reports := by
      intro r₀ r₁ out₀ heq hle
      rw [← (Prod.mk.inj (Option.some.inj heq)).2]
      exact hle
    split_ifs at h
    · exact ih _ _ _ _ _ h
    · exact ih _ _ _ _ _ h
    · exact hreturn h (dropPartial_reports _ _ _ _)
    · exact (dropPartial_reports _ _ _ _).trans (ih _ _ _ _ _ h)
    · exact ih _ _ _ _ _ h
    · exact (reportCorruption_reports _ _ _).trans (ih _ _ _ _ _ h)
    · exact hreturn h List.prefix_rfl
    · exact (reportCorruption_reports _ _ _).trans (ih _ _ _ _ _ h)
    · exact hreturn h List.prefix_rfl
    · exact (reportCorruption_reports _ _ _).trans (ih _ _ _ _ _ h)
    · exact ih _ _ _ _ _ h
    · exact (reportCorruption_reports _ _ _).trans (ih _ _ _ _ _ h)
    · exact (reportCorruption_reports _ _ _).trans (ih _ _ _ _ _ h)

theorem readRecord_reports {r r' : Reader} {out : Option (List Byte)}
    (h : r.readRecord = some (out, r')) : r.reports <+: r'.reports := by
  have hskip : (if r.lastRecordOffset < r.initialOffset then r.skipToInitialBlock else r).reports =
      r.reports := by
    split_ifs <;> rfl
  rw [← hskip]
  exact readLoop_reports _ _ _ _ _ _ _ _ h

theorem readAll_reports {fuel : ℕ} {r r' : Reader} {records : List (List Byte)}
    (h : Reader.readAll fuel r = some (records, r')) : r.reports <+: r'.reports := by
  induction fuel generalizing r records with
  | zero => simp [Reader.readAll] at h
  | succ fuel ih =>
    rw [Reader.readAll] at h
    split at h
    · simp at h
    · next r₁ hread =>
      rw [← (Prod.mk.inj (Option.some.inj h)).2]
      exact readRecord_reports hread
    · next record r₁ hread =>
      split at h
      · simp at h
      · next records₁ r₂ hall =>
        obtain ⟨-, rfl⟩ := Prod.mk.inj (Option.some.inj h)
        exact (readRecord_reports hread).trans (ih hall)

/-! ### Recovery of a log without corruption -/

theorem entries_append (s : ℕ) (us vs : List Update) :
    LevelDb.entries s (us ++ vs) = LevelDb.entries s us ++ LevelDb.entries (s + us.length) vs := by
  induction us generalizing s with
  | nil => simp [LevelDb.entries]
  | cons u us ih =>
    have hshift : s + 1 + us.length = s + (us.length + 1) := by omega
    rw [List.cons_append, LevelDb.entries, ih (s + 1), LevelDb.entries, List.cons_append,
      List.length_cons, hshift]

/-- The records of groups of updates written when `s` is the last sequence number. -/
def logRecords (s : ℕ) : List (List Update) → List (List Byte)
  | [] => []
  | us :: gs => WriteBatch.image (s + 1) us :: logRecords (s + us.length) gs

theorem logRecords_length (s : ℕ) (gs : List (List Update)) :
    (logRecords s gs).length = gs.length := by
  induction gs generalizing s with
  | nil => rfl
  | cons us gs ih => rw [logRecords, List.length_cons, ih, List.length_cons]

theorem logRecords_append (s : ℕ) (gs hs : List (List Update)) :
    logRecords s (gs ++ hs) = logRecords s gs ++ logRecords (s + gs.flatten.length) hs := by
  induction gs generalizing s with
  | nil => simp [logRecords]
  | cons us gs ih =>
    have hshift : s + us.length + gs.flatten.length = s + (us :: gs).flatten.length := by
      rw [List.flatten_cons, List.length_append]
      omega
    rw [List.cons_append, logRecords, ih, logRecords, List.cons_append, hshift]

theorem logRecords_take (s k : ℕ) (gs : List (List Update)) :
    (logRecords s gs).take k = logRecords s (gs.take k) := by
  have hsplit := logRecords_append s (gs.take k) (gs.drop k)
  rw [List.take_append_drop] at hsplit
  have hlen := logRecords_length s (gs.take k)
  rcases Nat.le_total k gs.length with hk | hk
  · rw [List.length_take, Nat.min_eq_left hk] at hlen
    rw [hsplit, List.take_left' hlen]
  · rw [List.take_of_length_le hk,
      List.take_of_length_le (by rw [logRecords_length]; exact hk)]

/-- A group that one record can hold. -/
def GroupSized (us : List Update) : Prop := us.length < 2 ^ 31 ∧ ∀ u ∈ us, u.Sized

theorem Recovery.insert_image (st : Recovery) (b : WriteBatch) (s : ℕ) (us : List Update)
    (hb : b.rep = WriteBatch.image (s + 1) us) (hus : GroupSized us)
    (hle : st.maxSequence ≤ s) (hend : s + us.length < 2 ^ 63) :
    (st.insert o b).status = none ∧
      (st.insert o b).entries = st.entries ++ LevelDb.entries (s + 1) us ∧
      (st.insert o b).maxSequence = s + us.length := by
  have hins := WriteBatch.insertInto_image hb hus.2 hus.1 (by omega) (st.mem.getD [])
  have hseq := WriteBatch.sequence_image hb (by omega)
  have hcount : b.count = us.length := WriteBatch.Carries.count ⟨_, hb⟩ hus.1
  have hlast : (((b.sequence : ℤ) + b.count - 1) % 2 ^ 64).toNat = s + us.length := by
    rw [hseq, hcount]
    omega
  have hmax : (if s + us.length > st.maxSequence then s + us.length else st.maxSequence) =
      s + us.length := by
    split_ifs <;> omega
  have hok : maybeIgnoreError o none = none := by
    rw [maybeIgnoreError]
    split_ifs <;> rfl
  rw [Recovery.insert, hins]
  dsimp only
  rw [hok, hlast, hmax]
  simp only [Option.isSome_none, Bool.false_eq_true, if_false]
  split_ifs with hfull
  · refine ⟨rfl, ?_, rfl⟩
    simp [Recovery.entries]
  · refine ⟨rfl, ?_, rfl⟩
    simp [Recovery.entries]

/-- When nothing is reported and the records are those of groups of updates written
from the sequence number `s` on, recovery inserts them one after the other. -/
theorem recoverLoop_logRecords (fuel s : ℕ) (gs : List (List Update)) (r r' : Reader)
    (st : Recovery) (hread : Reader.readAll fuel r = some (logRecords s gs, r'))
    (hclean : r'.reports = []) (hgs : ∀ us ∈ gs, GroupSized us) (hle : st.maxSequence ≤ s)
    (hend : s + gs.flatten.length < 2 ^ 63) (hst : st.status = none) :
    ∃ st', recoverLoop o fuel r st = some st' ∧ st'.status = none ∧
      st'.entries = st.entries ++ LevelDb.entries (s + 1) gs.flatten ∧
      st'.maxSequence = if gs = [] then st.maxSequence else s + gs.flatten.length := by
  induction fuel generalizing s gs r st with
  | zero => simp [Reader.readAll] at hread
  | succ fuel ih =>
    rw [Reader.readAll] at hread
    split at hread
    · simp at hread
    · next r₁ hone =>
      obtain ⟨hnil, rfl⟩ := Prod.mk.inj (Option.some.inj hread)
      have hgs0 : gs = [] := by
        rw [← List.length_eq_zero_iff, ← logRecords_length s gs, ← hnil]
        rfl
      subst hgs0
      refine ⟨st, ?_, hst, by simp [LevelDb.entries], by simp⟩
      rw [recoverLoop, hone]
      simp [hclean]
    · next record r₁ hone =>
      split at hread
      · simp at hread
      · next records r₂ hall =>
        obtain ⟨hcons, rfl⟩ := Prod.mk.inj (Option.some.inj hread)
        -- reports only accumulate, so none was made up to here either
        have hclean₁ : r₁.reports = [] := by
          have := readAll_reports hall
          rw [hclean] at this
          exact List.prefix_nil.mp this
        cases gs with
        | nil => simp [logRecords] at hcons
        | cons us gs =>
          obtain ⟨rfl, rfl⟩ := List.cons.inj hcons
          rw [List.flatten_cons, List.length_append] at hend
          have hlen : WriteBatch.kHeader ≤ (WriteBatch.image (s + 1) us).length := by
            rw [WriteBatch.image_length]
            omega
          obtain ⟨hok, hentries, hmax⟩ := st.insert_image o
            ⟨WriteBatch.image (s + 1) us, hlen⟩ s us rfl (hgs us List.mem_cons_self) hle
            (by omega)
          obtain ⟨st', hloop, hok', hentries', hmax'⟩ := ih (s + us.length) gs r₁ _ hall
            (fun vs hvs => hgs vs (List.mem_cons_of_mem us hvs)) hmax.le (by omega) hok
          refine ⟨st', ?_, hok', ?_, ?_⟩
          · rw [recoverLoop, hone]
            simp only [hclean₁, List.drop_nil, List.foldl_nil, hst, Option.isSome_none,
              Bool.false_eq_true, if_false, dif_neg (not_lt.mpr hlen), hok]
            exact hloop
          · have hshift : s + us.length + 1 = s + 1 + us.length := by omega
            rw [hentries', hentries, List.flatten_cons, entries_append, List.append_assoc, hshift]
          · rw [hmax', hmax, if_neg (List.cons_ne_nil us gs), List.flatten_cons,
              List.length_append]
            split_ifs with hnil
            · simp [hnil]
            · omega

theorem Recovery.finish_keeps (st : Recovery) :
    (st.finish o).status = st.status ∧ (st.finish o).maxSequence = st.maxSequence := by
  rw [Recovery.finish]
  split_ifs <;> exact ⟨rfl, rfl⟩

theorem Recovery.finish_entries (st : Recovery) (hst : st.status = none) :
    (st.finish o).entries = st.entries := by
  rw [Recovery.finish, if_neg (by simp [hst])]
  split_ifs with hkeep
  · rfl
  · cases hmem : st.mem with
    | none => simp [Recovery.entries, hmem]
    | some mem => simp [Recovery.entries, hmem]

theorem recoverLogFile_logRecords (file : List Byte) (s maxSequence : ℕ)
    (gs : List (List Update)) (hread : readLog file true 0 = some (logRecords s gs, []))
    (hgs : ∀ us ∈ gs, GroupSized us) (hle : maxSequence ≤ s)
    (hend : s + gs.flatten.length < 2 ^ 63) :
    ∃ st, recoverLogFile o file maxSequence = some st ∧ st.status = none ∧
      st.entries = LevelDb.entries (s + 1) gs.flatten ∧
      st.maxSequence = if gs = [] then maxSequence else s + gs.flatten.length := by
  rw [readLog] at hread
  split at hread
  · simp at hread
  · next records r' hall =>
    obtain ⟨rfl, hclean⟩ := Prod.mk.inj (Option.some.inj hread)
    obtain ⟨st, hloop, hok, hentries, hmax⟩ := recoverLoop_logRecords o _ s gs _ r'
      ⟨none, none, [], maxSequence⟩ hall hclean hgs hle hend rfl
    obtain ⟨hfstatus, hfmax⟩ := st.finish_keeps o
    refine ⟨st.finish o, ?_, hfstatus.trans hok, ?_, hfmax.trans hmax⟩
    · rw [recoverLogFile, hloop]
    · rw [st.finish_entries o hok, hentries]
      simp [Recovery.entries]

/-! ### Recovery of any file -/

theorem parseRecord_unread (checksum : Bool) (initialOffset : ℕ) (c : Cursor)
    (result : List Byte) (h : kHeaderSize ≤ c.buffer.length) :
    (c.parseRecord checksum initialOffset result).2.2.1.unread < c.unread := by
  have hsize := kHeaderSize_eq
  simp only [Cursor.parseRecord]
  split_ifs <;> simp only [Cursor.unread, List.length_nil, List.length_drop] <;> omega

/-- A record that does not end the file has taken its header out of it. -/
theorem readPhysicalRecord_unread (checksum : Bool) (initialOffset : ℕ) (c : Cursor)
    (result : List Byte) :
    (c.readPhysicalRecord checksum initialOffset result).1 = kEof ∨
      (c.readPhysicalRecord checksum initialOffset result).2.2.1.unread < c.unread := by
  have hfill : c.fill.unread ≤ c.unread := by
    simp only [Cursor.unread, Cursor.fill, List.length_take, List.length_drop]
    omega
  rw [Cursor.readPhysicalRecord]
  split_ifs with hshort heof
  · exact .inl rfl
  · dsimp only
    split_ifs with hstill
    · exact .inl rfl
    · exact .inr ((parseRecord_unread checksum initialOffset c.fill result
        (not_lt.mp hstill)).trans_le hfill)
  · exact .inr (parseRecord_unread checksum initialOffset c result (not_lt.mp hshort))

theorem dropPartial_cursor (r : Reader) (b : Bool) (scratch : List Byte) (reason : String) :
    (r.dropPartial b scratch reason).cursor = r.cursor := by
  rw [Reader.dropPartial]
  split_ifs <;> rfl

theorem readLoop_total (fuel : ℕ) (r : Reader) (b : Bool) (scratch : List Byte)
    (prospective : ℕ) (fragment : List Byte) (h : r.cursor.unread < fuel) :
    ∃ out r', Reader.readLoop fuel r b scratch prospective fragment = some (out, r') ∧
      (out ≠ none → r'.cursor.unread < r.cursor.unread) := by
  induction fuel generalizing r b scratch prospective fragment with
  | zero => omega
  | succ fuel ih =>
    have hstep := readPhysicalRecord_unread r.checksum r.initialOffset r.cursor fragment
    obtain ⟨recordType, fragment', cursor, reports, hread⟩ :
        ∃ a b c d, r.cursor.readPhysicalRecord r.checksum r.initialOffset fragment = (a, b, c, d) :=
      ⟨_, _, _, _, rfl⟩
    rw [hread] at hstep
    rw [Reader.readLoop, hread]
    dsimp only at hstep ⊢
    by_cases heof : recordType = kEof
    · subst heof
      simp [kEof, RecordType.code]
    have hlt : cursor.unread < r.cursor.unread := hstep.resolve_left heof
    have hgo : ∀ (r₁ : Reader) b s p f, r₁.cursor = cursor →
        ∃ out r', Reader.readLoop fuel r₁ b s p f = some (out, r') ∧
          (out ≠ none → r'.cursor.unread < r.cursor.unread) := by
      intro r₁ b s p f hcursor
      obtain ⟨out, r', hrun, hout⟩ := ih r₁ b s p f (by rw [hcursor]; omega)
      rw [hcursor] at hout
      exact ⟨out, r', hrun, fun ho => (hout ho).trans hlt⟩
    split_ifs
    · exact hgo _ _ _ _ _ rfl
    · exact hgo _ _ _ _ _ rfl
    · exact ⟨_, _, rfl, fun _ => by rw [dropPartial_cursor]; exact hlt⟩
    · exact hgo _ _ _ _ _ (dropPartial_cursor _ _ _ _)
    · exact hgo _ _ _ _ _ rfl
    · exact hgo _ _ _ _ _ rfl
    · exact ⟨_, _, rfl, fun _ => hlt⟩
    · exact hgo _ _ _ _ _ rfl
    · exact hgo _ _ _ _ _ rfl
    · exact hgo _ _ _ _ _ rfl
    · exact hgo _ _ _ _ _ rfl
    · exact hgo _ _ _ _ _ rfl

theorem readRecord_total (r : Reader) :
    ∃ out r', r.readRecord = some (out, r') ∧
      (out ≠ none → r'.cursor.unread < r.cursor.unread) := by
  have hskip : (if r.lastRecordOffset < r.initialOffset then r.skipToInitialBlock
      else r).cursor.unread ≤ r.cursor.unread := by
    split_ifs
    · simp only [Cursor.unread, Reader.skipToInitialBlock, List.length_drop]
      omega
    · exact le_rfl
  obtain ⟨out, r', hrun, hout⟩ := readLoop_total _
    (if r.lastRecordOffset < r.initialOffset then r.skipToInitialBlock else r) false [] 0 []
    (Nat.lt_succ_self _)
  exact ⟨out, r', hrun, fun ho => (hout ho).trans_le hskip⟩

theorem Recovery.corruption_keeps (st : Recovery) (reason : String) :
    (st.corruption o reason).maxSequence = st.maxSequence ∧
      (o.paranoidChecks = false → (st.corruption o reason).status = st.status) := by
  rw [Recovery.corruption]
  split_ifs with hset
  · refine ⟨rfl, fun hp => ?_⟩
    simp [hp] at hset
  · exact ⟨rfl, fun _ => rfl⟩

theorem Recovery.foldl_corruption_keeps (reports : List Report) (st : Recovery) :
    (reports.foldl (fun st p => st.corruption o p.2) st).maxSequence = st.maxSequence ∧
      (o.paranoidChecks = false →
        (reports.foldl (fun st p => st.corruption o p.2) st).status = st.status) := by
  induction reports generalizing st with
  | nil => exact ⟨rfl, fun _ => rfl⟩
  | cons p reports ih =>
    obtain ⟨hmax, hstatus⟩ := st.corruption_keeps o p.2
    obtain ⟨hmax', hstatus'⟩ := ih (st.corruption o p.2)
    exact ⟨hmax'.trans hmax, fun hp => (hstatus' hp).trans (hstatus hp)⟩

theorem Recovery.insert_keeps (st : Recovery) (b : WriteBatch) :
    st.maxSequence ≤ (st.insert o b).maxSequence ∧
      (o.paranoidChecks = false → (st.insert o b).status = none) := by
  have hignore : ∀ status, o.paranoidChecks = false → maybeIgnoreError o status = none := by
    intro status hp
    rw [maybeIgnoreError, if_neg (by simp [hp])]
  rw [Recovery.insert]
  dsimp only
  refine ⟨?_, fun hp => ?_⟩
  · split_ifs <;> dsimp only <;> omega
  · rw [hignore _ hp, if_neg (by simp)]
    split_ifs <;> rfl

theorem recoverLoop_total (fuel : ℕ) (r : Reader) (st : Recovery) (h : r.cursor.unread < fuel) :
    ∃ st', recoverLoop o fuel r st = some st' ∧ st.maxSequence ≤ st'.maxSequence ∧
      (o.paranoidChecks = false → st.status = none → st'.status = none) := by
  induction fuel generalizing r st with
  | zero => omega
  | succ fuel ih =>
    obtain ⟨out, r', hread, hout⟩ := readRecord_total r
    obtain ⟨hmax, hstatus⟩ := Recovery.foldl_corruption_keeps o
      (r'.reports.drop r.reports.length) st
    rw [recoverLoop, hread]
    dsimp only
    generalize (r'.reports.drop r.reports.length).foldl (fun st p => st.corruption o p.2) st = st₁
      at hmax hstatus ⊢
    cases out with
    | none => exact ⟨st₁, rfl, hmax.ge, fun hp hst => (hstatus hp).trans hst⟩
    | some record =>
      have hless := hout (by simp)
      dsimp only
      split_ifs with hbad hsmall hfail
      · exact ⟨st₁, rfl, hmax.ge, fun hp hst => (hstatus hp).trans hst⟩
      · obtain ⟨hmax₁, hstatus₁⟩ := st₁.corruption_keeps o "log record too small"
        obtain ⟨st', hrun, hmax', hok⟩ := ih r' _ (by omega)
        refine ⟨st', hrun, (hmax.symm.trans hmax₁.symm).trans_le hmax', fun hp hst => hok hp ?_⟩
        exact (hstatus₁ hp).trans ((hstatus hp).trans hst)
      · obtain ⟨hmax₁, hstatus₁⟩ := st₁.insert_keeps o ⟨record, not_lt.mp hsmall⟩
        exact ⟨_, rfl, hmax.symm.trans_le hmax₁, fun hp _ => hstatus₁ hp⟩
      · obtain ⟨hmax₁, hstatus₁⟩ := st₁.insert_keeps o ⟨record, not_lt.mp hsmall⟩
        obtain ⟨st', hrun, hmax', hok⟩ := ih r' _ (by omega)
        exact ⟨st', hrun, (hmax.symm.trans_le hmax₁).trans hmax', fun hp _ => hok hp (hstatus₁ hp)⟩

/-- Whatever a log file holds, recovery from it ends and does not lower the last
sequence number; without paranoid checks it ends well. -/
theorem recovers_any_file (file : List Byte) (maxSequence : ℕ) :
    ∃ st, recoverLogFile o file maxSequence = some st ∧ maxSequence ≤ st.maxSequence ∧
      (o.paranoidChecks = false → st.status = none) := by
  obtain ⟨st, hloop, hmax, hok⟩ := recoverLoop_total o (file.length + 1)
    (Reader.create file true 0) ⟨none, none, [], maxSequence⟩ (by simp [Cursor.unread, Reader.create])
  obtain ⟨hstatus, hmax'⟩ := st.finish_keeps o
  refine ⟨st.finish o, by rw [recoverLogFile, hloop], by rw [hmax']; exact hmax, fun hp => ?_⟩
  rw [hstatus]
  exact hok hp rfl

end FreqAnalysis.LevelDb
