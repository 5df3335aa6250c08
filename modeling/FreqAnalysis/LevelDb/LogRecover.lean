import FreqAnalysis.LevelDb.LogLayout

/-!
# Records assembled from fragments

The cursor turns a log file into a sequence of events, a fragment or a bad
record at a time, and `ReadRecord` assembles the records from it. Reading a
whole log is a function of its events.
-/

namespace FreqAnalysis.LevelDb.Log

open Base Crc32c

/-- What one call of `ReadPhysicalRecord` finds. -/
inductive Event
  | fragment (f : Fragment)
  | bad (reports : List Report)

def Cursor.unread (c : Cursor) : ℕ := c.buffer.length + c.file.length

/-- The events from a cursor to the end of the file. -/
inductive Yields (checksum : Bool) : Cursor → List Event → Prop
  | eof (c c' : Cursor)
    (h : ∀ result, c.readPhysicalRecord checksum 0 result = (kEof, result, c', [])) :
    Yields checksum c []
  | fragment (c c' : Cursor) (f : Fragment) (events : List Event)
    (h : ∀ result, c.readPhysicalRecord checksum 0 result = (f.1.code, f.2, c', []))
    (hless : c'.unread < c.unread) (hrest : Yields checksum c' events) :
    Yields checksum c (.fragment f :: events)
  | bad (c c' : Cursor) (reports : List Report) (events : List Event)
    (h : ∀ result, c.readPhysicalRecord checksum 0 result = (kBadRecord, result, c', reports))
    (hless : c'.unread < c.unread) (hrest : Yields checksum c' events) :
    Yields checksum c (.bad reports :: events)

theorem Yields.length_le {checksum : Bool} {c : Cursor} {events : List Event}
    (h : Yields checksum c events) : events.length ≤ c.unread := by
  induction h with
  | eof => exact Nat.zero_le _
  | fragment c c' f events _ hless _ ih =>
    rw [List.length_cons]
    omega
  | bad c c' reports events _ hless _ ih =>
    rw [List.length_cons]
    omega

/-! ### Assembling records -/

/-- What is reported when a record starts inside another one. -/
def dropReports (pending : Option (List Byte)) (reason : String) : List Report :=
  match pending with
  | some scratch => if scratch.isEmpty then [] else [(scratch.length, reason)]
  | none => []

def consRecord (reports : List Report) (record : List Byte)
    (out : List (List Byte) × List Report) : List (List Byte) × List Report :=
  (record :: out.1, reports ++ out.2)

def consReports (reports : List Report) (out : List (List Byte) × List Report) :
    List (List Byte) × List Report :=
  (out.1, reports ++ out.2)

/-- The records and the reports of a sequence of events; `pending` is the part
of a record that has been put together so far. -/
def assemble : Option (List Byte) → List Event → List (List Byte) × List Report
  | _, [] => ([], [])
  | pending, .fragment (.full, d) :: events =>
    consRecord (dropReports pending "partial record without end(1)") d (assemble none events)
  | pending, .fragment (.first, d) :: events =>
    consReports (dropReports pending "partial record without end(2)") (assemble (some d) events)
  | some scratch, .fragment (.middle, d) :: events => assemble (some (scratch ++ d)) events
  | none, .fragment (.middle, d) :: events =>
    consReports [(d.length, "missing start of fragmented record(1)")] (assemble none events)
  | some scratch, .fragment (.last, d) :: events =>
    consRecord [] (scratch ++ d) (assemble none events)
  | none, .fragment (.last, d) :: events =>
    consReports [(d.length, "missing start of fragmented record(2)")] (assemble none events)
  | pending, .fragment (.zero, d) :: events =>
    consReports [(d.length + (pending.getD []).length, "unknown record type " ++ toString 0)]
      (assemble none events)
  | some scratch, .bad reports :: events =>
    consReports (reports ++ [(scratch.length, "error in middle of record")])
      (assemble none events)
  | none, .bad reports :: events => consReports reports (assemble none events)

/-- A reader that started at the beginning of its file. -/
structure Reader.Plain (checksum : Bool) (r : Reader) : Prop where
  checksum_eq : r.checksum = checksum
  initial : r.initialOffset = 0
  resyncing : r.resyncing = false

/-- The round of `readAll` behind a call of `ReadRecord`. -/
def Reader.collect (fuel : ℕ) :
    Option (Option (List Byte) × Reader) → Option (List (List Byte) × Reader)
  | none => none
  | some (none, r) => some ([], r)
  | some (some record, r) =>
    match Reader.readAll fuel r with
    | none => none
    | some (records, r) => some (record :: records, r)

theorem Reader.readAll_succ (fuel : ℕ) (r : Reader) :
    Reader.readAll (fuel + 1) r = Reader.collect fuel r.readRecord := by
  rw [Reader.readAll]
  rcases r.readRecord with _ | ⟨_ | record, r'⟩ <;> rfl

namespace Reader

variable {checksum : Bool} {r : Reader}

def report (r : Reader) (reports : List Report) : Reader :=
  { r with reports := r.reports ++ reports }

/-- The reader behind a fragment, before the switch over its type. -/
def after (r : Reader) (c' : Cursor) : Reader := { r with cursor := c', resyncing := false }

def located (r : Reader) (offset : ℕ) : Reader := { r with lastRecordOffset := offset }

theorem Plain.report (h : r.Plain checksum) (reports : List Report) :
    (r.report reports).Plain checksum := ⟨h.checksum_eq, h.initial, h.resyncing⟩

theorem Plain.after (h : r.Plain checksum) (c' : Cursor) : (r.after c').Plain checksum :=
  ⟨h.checksum_eq, h.initial, rfl⟩

theorem Plain.located (h : r.Plain checksum) (offset : ℕ) : (r.located offset).Plain checksum :=
  ⟨h.checksum_eq, h.initial, h.resyncing⟩

theorem Plain.reportDrop_eq (h : r.Plain checksum) (bytes : ℕ) (reason : String) :
    reportDrop r.initialOffset r.cursor bytes reason = [(bytes, reason)] := by
  rw [h.initial, Cursor.reportDrop_zero]

theorem Plain.reportCorruption_eq (h : r.Plain checksum) (bytes : ℕ) (reason : String) :
    r.reportCorruption bytes reason = r.report [(bytes, reason)] := by
  rw [reportCorruption, h.reportDrop_eq]
  rfl

theorem Plain.dropPartial_eq (h : r.Plain checksum) (pending : Option (List Byte))
    (reason : String) :
    r.dropPartial pending.isSome (pending.getD []) reason =
      r.report (dropReports pending reason) := by
  rw [dropPartial]
  cases pending with
  | none => simp [dropReports, Reader.report]
  | some scratch =>
    cases scratch with
    | nil => simp [dropReports, Reader.report]
    | cons b scratch => simp [dropReports, h.reportCorruption_eq]

/-- `ReadRecord` in the middle of a record, and then all the records behind it. -/
def Collects (checksum : Bool) (c : Cursor) (events : List Event) : Prop :=
  ∀ (r : Reader) (pending : Option (List Byte)) (fuel fuel' prospective : ℕ)
    (fragment : List Byte), r.cursor = c → r.Plain checksum → events.length < fuel →
    events.length ≤ fuel' →
    ∃ r', collect fuel' (readLoop fuel r pending.isSome (pending.getD []) prospective fragment) =
        some ((assemble pending events).1, r') ∧
      r'.reports = r.reports ++ (assemble pending events).2

theorem Collects.readAll {c : Cursor} {events : List Event} (h : Collects checksum c events)
    (hlen : events.length ≤ c.unread) (r : Reader) (hc : r.cursor = c) (hr : r.Plain checksum)
    (fuel : ℕ) (hfuel : events.length < fuel) :
    ∃ r', Reader.readAll fuel r = some ((assemble none events).1, r') ∧
      r'.reports = r.reports ++ (assemble none events).2 := by
  obtain ⟨k, rfl⟩ : ∃ k, fuel = k + 1 := ⟨fuel - 1, by omega⟩
  have hstart : r.readRecord = readLoop (c.unread + 1) r false [] 0 [] := by
    rw [readRecord, hr.initial, if_neg (Nat.not_lt_zero _), hc]
    rfl
  rw [readAll_succ, hstart]
  exact h r none (c.unread + 1) k 0 [] hc hr (by omega) (by omega)

/-- A record is complete: what is collected behind it comes after it. -/
theorem Collects.record {c : Cursor} {events : List Event} (h : Collects checksum c events)
    (hlen : events.length ≤ c.unread) (r : Reader) (hc : r.cursor = c) (hr : r.Plain checksum)
    (fuel : ℕ) (hfuel : events.length < fuel) (record : List Byte) :
    ∃ r', collect fuel (some (some record, r)) =
        some (record :: (assemble none events).1, r') ∧
      r'.reports = r.reports ++ (assemble none events).2 := by
  obtain ⟨r', hall, hreports⟩ := h.readAll hlen r hc hr fuel hfuel
  refine ⟨r', ?_, hreports⟩
  rw [collect, hall]

theorem collects_eof (c c' : Cursor)
    (h : ∀ result, c.readPhysicalRecord checksum 0 result = (kEof, result, c', [])) :
    Collects checksum c [] := by
  intro r pending fuel fuel' prospective fragment hc hr hfuel _
  obtain ⟨k, rfl⟩ : ∃ k, fuel = k + 1 := ⟨fuel - 1, by omega⟩
  refine ⟨{ r with cursor := c', reports := r.reports ++ [], resyncing := false }, ?_, rfl⟩
  rw [readLoop, hc, hr.checksum_eq, hr.initial, h]
  simp [hr.resyncing, RecordType.code, kEof, collect, assemble]

theorem collects_bad (c c' : Cursor) (reports : List Report) (events : List Event)
    (h : ∀ result, c.readPhysicalRecord checksum 0 result = (kBadRecord, result, c', reports))
    (ih : Collects checksum c' events) : Collects checksum c (.bad reports :: events) := by
  intro r pending fuel fuel' prospective fragment hc hr hfuel hfuel'
  simp only [List.length_cons] at hfuel hfuel'
  obtain ⟨k, rfl⟩ : ∃ k, fuel = k + 1 := ⟨fuel - 1, by omega⟩
  have hplain := (hr.after c').report reports
  have hround : readLoop (k + 1) r pending.isSome (pending.getD []) prospective fragment =
      if pending.isSome then
        readLoop k (((r.after c').report reports).reportCorruption (pending.getD []).length
          "error in middle of record") false [] prospective fragment
      else readLoop k ((r.after c').report reports) false (pending.getD []) prospective fragment := by
    rw [readLoop, hc, hr.checksum_eq, hr.initial, h]
    simp [hr.resyncing, hr.checksum_eq, hr.initial, RecordType.code, kEof, kBadRecord,
      Reader.after, Reader.report]
  rw [hround]
  cases pending with
  | none =>
    obtain ⟨r', hrun, hrep⟩ := ih ((r.after c').report reports) none k fuel' prospective fragment
      rfl hplain (by omega) (by omega)
    refine ⟨r', hrun, ?_⟩
    rw [hrep]
    simp [assemble, consReports, Reader.after, Reader.report]
  | some scratch =>
    rw [hplain.reportCorruption_eq]
    obtain ⟨r', hrun, hrep⟩ := ih (((r.after c').report reports).report
        [(scratch.length, "error in middle of record")]) none k fuel' prospective fragment rfl
      (hplain.report _) (by omega) (by omega)
    refine ⟨r', hrun, ?_⟩
    rw [hrep]
    simp [assemble, consReports, Reader.after, Reader.report]

/-- One round of `ReadRecord` on a fragment. -/
theorem Plain.round (hr : r.Plain checksum) {c' : Cursor} (t : RecordType) (d : List Byte)
    (hread : ∀ result, r.cursor.readPhysicalRecord checksum 0 result = (t.code, d, c', []))
    (pending : Option (List Byte)) (k prospective : ℕ) (fragment : List Byte) :
    ∃ offset, readLoop (k + 1) r pending.isSome (pending.getD []) prospective fragment =
      match t with
      | .full => some (some d, ((r.after c').dropPartial pending.isSome (pending.getD [])
          "partial record without end(1)").located offset)
      | .first => readLoop k ((r.after c').dropPartial pending.isSome (pending.getD [])
          "partial record without end(2)") true d offset d
      | .middle =>
        if pending.isSome then readLoop k (r.after c') true (pending.getD [] ++ d) prospective d
        else readLoop k ((r.after c').reportCorruption d.length
          "missing start of fragmented record(1)") false (pending.getD []) prospective d
      | .last =>
        if pending.isSome then
          some (some (pending.getD [] ++ d), (r.after c').located prospective)
        else readLoop k ((r.after c').reportCorruption d.length
          "missing start of fragmented record(2)") false (pending.getD []) prospective d
      | .zero => readLoop k ((r.after c').reportCorruption
          (d.length + if pending.isSome then (pending.getD []).length else 0)
          ("unknown record type " ++ toString 0)) false [] prospective d := by
  refine ⟨c'.endOfBufferOffset - c'.buffer.length - kHeaderSize - d.length, ?_⟩
  rw [readLoop, hr.checksum_eq, hr.initial, hread]
  cases t <;>
    simp [hr.resyncing, hr.checksum_eq, hr.initial, RecordType.code, kEof, kBadRecord, Reader.after,
      Reader.located]

theorem collects_fragment (c c' : Cursor) (f : Fragment) (events : List Event)
    (h : ∀ result, c.readPhysicalRecord checksum 0 result = (f.1.code, f.2, c', []))
    (hlen : events.length ≤ c'.unread)
    (ih : Collects checksum c' events) : Collects checksum c (.fragment f :: events) := by
  intro r pending fuel fuel' prospective fragment hc hr hfuel hfuel'
  simp only [List.length_cons] at hfuel hfuel'
  obtain ⟨k, rfl⟩ : ∃ k, fuel = k + 1 := ⟨fuel - 1, by omega⟩
  obtain ⟨t, d⟩ := f
  subst hc
  have hplain := hr.after c'
  obtain ⟨offset, hround⟩ := hr.round t d h pending k prospective fragment
  rw [hround]
  cases t with
  | zero =>
    dsimp only
    rw [hplain.reportCorruption_eq]
    obtain ⟨r', hrun, hrep⟩ := ih ((r.after c').report _) none k fuel' prospective d rfl
      (hplain.report _) (by omega) (by omega)
    refine ⟨r', hrun.trans ?_, ?_⟩
    · cases pending <;> simp [assemble, consReports]
    · rw [hrep]
      cases pending <;> simp [assemble, consReports, Reader.after, Reader.report]
  | full =>
    dsimp only
    rw [hplain.dropPartial_eq]
    obtain ⟨r', hrun, hrep⟩ := ih.record hlen (((r.after c').report _).located offset) rfl
      ((hplain.report _).located offset) fuel' (by omega) d
    refine ⟨r', hrun.trans ?_, ?_⟩
    · cases pending <;> simp [assemble, consRecord]
    · rw [hrep]
      cases pending <;> simp [assemble, consRecord, Reader.after, Reader.report, Reader.located]
  | first =>
    dsimp only
    rw [hplain.dropPartial_eq]
    obtain ⟨r', hrun, hrep⟩ := ih ((r.after c').report _) (some d) k fuel' offset d rfl
      (hplain.report _) (by omega) (by omega)
    refine ⟨r', hrun.trans ?_, ?_⟩
    · cases pending <;> simp [assemble, consReports]
    · rw [hrep]
      cases pending <;> simp [assemble, consReports, Reader.after, Reader.report]
  | middle =>
    cases pending with
    | none =>
      dsimp only
      rw [Option.isSome_none, if_neg (by decide), hplain.reportCorruption_eq]
      obtain ⟨r', hrun, hrep⟩ := ih ((r.after c').report _) none k fuel' prospective d rfl
        (hplain.report _) (by omega) (by omega)
      refine ⟨r', hrun, ?_⟩
      rw [hrep]
      simp [assemble, consReports, Reader.after, Reader.report]
    | some scratch =>
      obtain ⟨r', hrun, hrep⟩ := ih (r.after c') (some (scratch ++ d)) k fuel' prospective d rfl
        hplain (by omega) (by omega)
      refine ⟨r', hrun, ?_⟩
      rw [hrep]
      simp [assemble, Reader.after]
  | last =>
    cases pending with
    | none =>
      dsimp only
      rw [Option.isSome_none, if_neg (by decide), hplain.reportCorruption_eq]
      obtain ⟨r', hrun, hrep⟩ := ih ((r.after c').report _) none k fuel' prospective d rfl
        (hplain.report _) (by omega) (by omega)
      refine ⟨r', hrun, ?_⟩
      rw [hrep]
      simp [assemble, consReports, Reader.after, Reader.report]
    | some scratch =>
      obtain ⟨r', hrun, hrep⟩ := ih.record hlen ((r.after c').located prospective) rfl
        (hplain.located prospective) fuel' (by omega) (scratch ++ d)
      refine ⟨r', hrun, ?_⟩
      rw [hrep]
      simp [assemble, consRecord, Reader.after, Reader.located]

end Reader

theorem Yields.collects {checksum : Bool} {c : Cursor} {events : List Event}
    (h : Yields checksum c events) : Reader.Collects checksum c events := by
  induction h with
  | eof c c' h => exact Reader.collects_eof c c' h
  | fragment c c' f events h _ hrest ih =>
    exact Reader.collects_fragment c c' f events h hrest.length_le ih
  | bad c c' reports events h _ _ ih => exact Reader.collects_bad c c' reports events h ih

/-- A log file is read by assembling what the cursor finds in it. -/
theorem readLog_of_yields {checksum : Bool} {file : List Byte} {events : List Event}
    (h : Yields checksum ⟨file, [], false, 0⟩ events) :
    readLog file checksum 0 = some (assemble none events) := by
  have hlen := h.length_le
  have hunread : Cursor.unread ⟨file, [], false, 0⟩ = file.length := by
    rw [Cursor.unread]
    exact Nat.zero_add _
  obtain ⟨r', hall, hreports⟩ := h.collects.readAll hlen (Reader.create file checksum 0) rfl
    ⟨rfl, rfl, rfl⟩ (file.length + 1) (by omega)
  rw [readLog, hall]
  dsimp only
  rw [hreports]
  rfl

end FreqAnalysis.LevelDb.Log
