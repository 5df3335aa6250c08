import Mathlib.Algebra.Order.BigOperators.Group.List
import FreqAnalysis.LevelDb.Recovery

/-!
# Concurrent writes to a database

`DBImpl::Write` with `MakeRoomForWrite` and `BuildBatchGroup`, and
`CompactMemTable`. Callers wait in a queue; the one at its front makes room in the
memtable, writes its own batch and those of callers behind it as one record of the
log, inserts that record into the memtable and answers them all. When the memtable
is full, or when the caller has a null batch, a new log and a new memtable are
started; the old memtable is immutable until it is in a table file, and until
then the next switch has to wait.

An execution is any interleaving of callers that arrive, of work of the caller at
the front and of compactions of the immutable memtable. Files are written without
error, so `bg_error_` stays OK; the pause of one millisecond that
`MakeRoomForWrite` makes when level 0 fills up changes no state.
-/

namespace FreqAnalysis.LevelDb

open Base Log

/-! ### Writing -/

/-- `DBImpl::Writer`: a caller in the queue; a null batch asks for a compaction. -/
structure QueuedWriter where
  batch : Option WriteBatch
  sync : Bool

/-- The loop of `BuildBatchGroup`: `tmp_batch_` once it is in use, and the number
of callers taken behind the first. -/
def groupLoop (first : WriteBatch) (sync : Bool) (maxSize : ℕ) :
    List QueuedWriter → ℕ → Option WriteBatch → Option WriteBatch × ℕ
  | [], _, tmp => (tmp, 0)
  | w :: ws, size, tmp =>
    if w.sync && !sync then (tmp, 0)
    else
      match w.batch with
      | none =>
        match groupLoop first sync maxSize ws size tmp with
        | (tmp, taken) => (tmp, taken + 1)
      | some batch =>
        if size + batch.rep.length > maxSize then (tmp, 0)
        else
          let result := tmp.getD (WriteBatch.clear.append first)
          match groupLoop first sync maxSize ws (size + batch.rep.length)
            (some (result.append batch)) with
          | (tmp, taken) => (tmp, taken + 1)

def maxGroupSize (size : ℕ) : ℕ := if size ≤ 128 <<< 10 then size + 128 <<< 10 else 1 <<< 20

def buildBatchGroup (first : WriteBatch) (sync : Bool) (ws : List QueuedWriter) : WriteBatch × ℕ :=
  match groupLoop first sync (maxGroupSize first.rep.length) ws first.rep.length none with
  | (tmp, taken) => (tmp.getD first, taken)

/-- `imm_`, and the log that holds its updates until they are in a table file. -/
structure Immutable where
  log : Writer
  mem : MemTable

structure Db where
  lastSequence : ℕ
  /-- `logfile_number_`, counting log files only -/
  logfileNumber : ℕ
  log : Writer
  mem : MemTable
  imm : Option Immutable
  /-- the memtables in table files -/
  tables : List MemTable
  /-- the last sequence number in the descriptor -/
  manifestSequence : ℕ
  queue : List QueuedWriter
  /-- what the calls of `Write` returned, in the order of the queue -/
  answers : List (Option String)

/-- A new database. -/
def Db.create : Db := ⟨0, 0, Writer.create, [], none, [], 0, [], []⟩

/-- `SanitizeOptions` keeps `write_buffer_size` above what a new memtable takes. -/
structure DbOptions extends RecoveryOptions where
  fresh : outgrown [] = false

variable (o : DbOptions)

/-- `MakeRoomForWrite`: `none` when the caller has to wait. `stop` says that level 0 has
reached `kL0_StopWritesTrigger`. -/
def Db.makeRoomForWrite (db : Db) (force stop : Bool) : Option Db :=
  if !force && !o.outgrown db.mem then some db
  else if db.imm.isSome then none
  else if stop then none
  else
    -- the loop is left in its next round, as the new memtable has room
    some { db with
      logfileNumber := db.logfileNumber + 1
      log := Writer.create
      imm := some ⟨db.log, db.mem⟩
      mem := [] }

/-- The part of `Write` between `MakeRoomForWrite` and the answers, for a caller with a
batch in front of the callers `ws`. -/
def Db.writeGroup (db : Db) (batch : WriteBatch) (sync : Bool) (ws : List QueuedWriter) :
    Option Db :=
  match buildBatchGroup batch sync ws with
  | (group, taken) =>
    let updates := group.setSequence ((db.lastSequence + 1) % 2 ^ 64)
    match addRecord db.log updates.rep with
    | none => none
    | some log =>
      match updates.insertInto db.mem with
      | (status, mem) =>
        some { db with
          lastSequence := ((db.lastSequence + updates.count) % 2 ^ 64).toNat
          log := log
          mem := mem
          queue := ws.drop taken
          answers := db.answers ++ List.replicate (taken + 1) status }

/-- The caller at the front of the queue does its part of `Write`, or waits. -/
def Db.lead (db : Db) (stop : Bool) : Option Db :=
  match db.queue with
  | [] => some db
  | w :: ws =>
    match db.makeRoomForWrite o w.batch.isNone stop with
    | none => some db
    | some db =>
      match w.batch with
      | none => some { db with queue := ws, answers := db.answers ++ [none] }
      | some batch => db.writeGroup batch w.sync ws

/-- `CompactMemTable`. An empty memtable makes no table file; the log of the memtable is
not needed any more. -/
def Db.compactMemTable (db : Db) : Db :=
  match db.imm with
  | none => db
  | some imm =>
    { db with
      imm := none
      tables := if imm.mem.isEmpty then db.tables else db.tables ++ [imm.mem]
      manifestSequence := db.lastSequence }

/-- Everything in the database. -/
def Db.contents (db : Db) : MemTable :=
  db.tables.flatten ++ ((db.imm.elim [] Immutable.mem) ++ db.mem)

/-! ### Executions -/

/-- A call of `Write`: the updates of its batch, filled by the caller. -/
structure Request where
  updates : Option (List Update)
  sync : Bool

def Request.writer (r : Request) : QueuedWriter := ⟨r.updates.map WriteBatch.filled, r.sync⟩

def Request.Sized (r : Request) : Prop := ∀ us ∈ r.updates, GroupSized us

def updatesOf (rs : List Request) : List Update := rs.flatMap fun r => r.updates.getD []

inductive Action
  | arrive (r : Request)
  | lead (stop : Bool)
  | compact

def requestsOf : List Action → List Request
  | [] => []
  | .arrive r :: actions => r :: requestsOf actions
  | .lead _ :: actions => requestsOf actions
  | .compact :: actions => requestsOf actions

def Db.step (db : Db) : Action → Option Db
  | .arrive r => some { db with queue := db.queue ++ [r.writer] }
  | .lead stop => db.lead o stop
  | .compact => some db.compactMemTable

def Db.run (db : Db) : List Action → Option Db
  | [] => some db
  | action :: actions =>
    match db.step o action with
    | none => none
    | some db => db.run actions

theorem Db.run_cons {db db' : Db} {action : Action} (h : db.step o action = some db')
    (actions : List Action) : db.run o (action :: actions) = db'.run o actions := by
  rw [Db.run, h]

theorem Db.run_append (db : Db) (xs ys : List Action) :
    db.run o (xs ++ ys) = (db.run o xs).bind fun db' => db'.run o ys := by
  induction xs generalizing db with
  | nil => rfl
  | cons action xs ih =>
    rw [List.cons_append, Db.run, Db.run]
    cases db.step o action with
    | none => rfl
    | some db' => exact ih db'

theorem requestsOf_append (xs ys : List Action) :
    requestsOf (xs ++ ys) = requestsOf xs ++ requestsOf ys := by
  induction xs with
  | nil => rfl
  | cons action xs ih => cases action <;> simp [requestsOf, ih]

@[simp] theorem updatesOf_nil : updatesOf [] = [] := rfl

@[simp] theorem updatesOf_cons (r : Request) (rs : List Request) :
    updatesOf (r :: rs) = r.updates.getD [] ++ updatesOf rs := List.flatMap_cons

@[simp] theorem updatesOf_append (rs ts : List Request) :
    updatesOf (rs ++ ts) = updatesOf rs ++ updatesOf ts := List.flatMap_append

theorem updatesOf_flatten (groups : List (List Request)) :
    updatesOf groups.flatten = (groups.map updatesOf).flatten := by
  induction groups with
  | nil => rfl
  | cons g groups ih =>
    rw [List.flatten_cons, updatesOf_append, ih, List.map_cons, List.flatten_cons]

theorem updatesOf_sized {rs : List Request} (hrs : ∀ r ∈ rs, r.Sized) :
    ∀ u ∈ updatesOf rs, u.Sized := by
  intro u hu
  obtain ⟨r, hr, hur⟩ := List.mem_flatMap.mp hu
  cases hups : r.updates with
  | none => simp [hups] at hur
  | some us =>
    rw [hups, Option.getD_some] at hur
    exact (hrs r hr us hups).2 u hur

theorem Request.writer_batch_none {r : Request} (h : r.updates = none) :
    r.writer.batch = none := by simp [Request.writer, h]

theorem Request.writer_batch_some {r : Request} {us : List Update} (h : r.updates = some us) :
    r.writer.batch = some (WriteBatch.filled us) := by simp [Request.writer, h]

/-! ### A group of callers -/

theorem length_le_flatMap_encode (us : List Update) :
    us.length ≤ (us.flatMap Update.encode).length := by
  -- every update has at least its tag
  have hone : ∀ i ∈ us.map fun u => u.encode.length, 1 ≤ i := by
    intro i hi
    obtain ⟨u, -, rfl⟩ := List.mem_map.mp hi
    cases u <;> simp [Update.encode]
  have hsum := List.card_nsmul_le_sum _ 1 hone
  rw [List.length_map] at hsum
  simpa [List.length_flatMap] using hsum

theorem WriteBatch.Carries.length_le {b : WriteBatch} {us : List Update} (h : b.Carries us) :
    us.length ≤ b.rep.length := by
  obtain ⟨seq, hrep⟩ := h
  have := length_le_flatMap_encode us
  rw [hrep, WriteBatch.image_length]
  omega

/-- The batch of the group holds the updates of the callers taken, in their order. A
group of several callers is small, as its size in bytes is bounded. -/
theorem groupLoop_carries (first : WriteBatch) (sync : Bool) (maxSize : ℕ)
    (hmax : maxSize < 2 ^ 31) (rs : List Request) (hrs : ∀ r ∈ rs, r.Sized) (size : ℕ)
    (tmp : Option WriteBatch) (us : List Update) (hus : us.length < 2 ^ 31)
    (hsize : us.length ≤ size) (hcarries : (tmp.getD first).Carries us) :
    ∃ tmp' taken, groupLoop first sync maxSize (rs.map Request.writer) size tmp = (tmp', taken) ∧
      taken ≤ rs.length ∧ (tmp'.getD first).Carries (us ++ updatesOf (rs.take taken)) ∧
      (us ++ updatesOf (rs.take taken)).length < 2 ^ 31 := by
  induction rs generalizing size tmp us with
  | nil => exact ⟨tmp, 0, rfl, le_rfl, by simpa using hcarries, by simpa using hus⟩
  | cons r rs ih =>
    have hrs' : ∀ r ∈ rs, r.Sized := fun t ht => hrs t (List.mem_cons_of_mem r ht)
    have hstop : (tmp.getD first).Carries (us ++ updatesOf ((r :: rs).take 0)) ∧
        (us ++ updatesOf ((r :: rs).take 0)).length < 2 ^ 31 := by
      rw [List.take_zero, updatesOf_nil, List.append_nil]
      exact ⟨hcarries, hus⟩
    rw [List.map_cons, groupLoop]
    split_ifs with hsync
    · exact ⟨tmp, 0, rfl, Nat.zero_le _, hstop⟩
    cases hups : r.updates with
    | none =>
      obtain ⟨tmp', taken, hloop, htaken, hcar, hlen⟩ := ih hrs' size tmp us hus hsize hcarries
      rw [Request.writer_batch_none hups]
      dsimp only
      rw [hloop]
      refine ⟨tmp', taken + 1, rfl, Nat.succ_le_succ htaken, ?_, ?_⟩
      · simpa [hups] using hcar
      · simpa [hups] using hlen
    | some vs =>
      have hvs := hrs r List.mem_cons_self vs hups
      have hfilled := WriteBatch.filled_carries vs hvs.1
      rw [Request.writer_batch_some hups]
      dsimp only
      split_ifs with hbig
      · exact ⟨tmp, 0, rfl, Nat.zero_le _, hstop⟩
      have hresult : (tmp.getD (WriteBatch.clear.append first)).Carries us := by
        cases tmp with
        | none => exact WriteBatch.clear_carries.append hcarries (by norm_num) hus
        | some t => exact hcarries
      have hgrown := hresult.append hfilled hus hvs.1
      have hbytes := hfilled.length_le
      have hsum : (us ++ vs).length = us.length + vs.length := List.length_append
      obtain ⟨tmp', taken, hloop, htaken, hcar, hlen⟩ := ih hrs'
        (size + (WriteBatch.filled vs).rep.length)
        (some ((tmp.getD (WriteBatch.clear.append first)).append (WriteBatch.filled vs)))
        (us ++ vs) (by omega) (by omega) hgrown
      rw [hloop]
      refine ⟨tmp', taken + 1, rfl, Nat.succ_le_succ htaken, ?_, ?_⟩
      · simpa [hups] using hcar
      · simpa [hups] using hlen

theorem maxGroupSize_lt (size : ℕ) : maxGroupSize size < 2 ^ 31 := by
  rw [maxGroupSize]
  have h17 : 128 <<< 10 = 2 ^ 17 := by decide
  have h20 : 1 <<< 20 = 2 ^ 20 := by decide
  rw [h17, h20]
  split_ifs <;> omega

theorem buildBatchGroup_carries (us : List Update) (hus : us.length < 2 ^ 31) (sync : Bool)
    (rs : List Request) (hrs : ∀ r ∈ rs, r.Sized) :
    ∃ group taken,
      buildBatchGroup (WriteBatch.filled us) sync (rs.map Request.writer) = (group, taken) ∧
      taken ≤ rs.length ∧ group.Carries (us ++ updatesOf (rs.take taken)) ∧
      (us ++ updatesOf (rs.take taken)).length < 2 ^ 31 := by
  have hfilled := WriteBatch.filled_carries us hus
  obtain ⟨tmp, taken, hloop, htaken, hcar, hlen⟩ := groupLoop_carries (WriteBatch.filled us) sync
    (maxGroupSize (WriteBatch.filled us).rep.length) (maxGroupSize_lt _) rs hrs
    (WriteBatch.filled us).rep.length none us hus hfilled.length_le hfilled
  refine ⟨tmp.getD (WriteBatch.filled us), taken, ?_, htaken, hcar, hlen⟩
  rw [buildBatchGroup, hloop]

/-! ### A memtable and its log -/

theorem run_append (w : Writer) (xs ys : List Op) :
    Log.run w (xs ++ ys) = (Log.run w xs).bind fun w' => Log.run w' ys := by
  induction xs generalizing w with
  | nil => rfl
  | cons op xs ih =>
    cases op with
    | add record =>
      rw [List.cons_append, Log.run, Log.run]
      cases addRecord w record with
      | none => rfl
      | some w' => exact ih w'
    | reopen => exact ih (Writer.reopen w.dest)

/-- The records of groups of calls written when `s` was the last sequence number. -/
def groupRecords (s : ℕ) (groups : List (List Request)) : List (List Byte) :=
  logRecords s (groups.map updatesOf)

/-- A memtable and its log hold the updates of groups of calls, one record for each group. -/
structure Holds (w : Writer) (mem : MemTable) (s : ℕ) (groups : List (List Request)) : Prop where
  sized : ∀ g ∈ groups, GroupSized (updatesOf g)
  mem : mem = entries (s + 1) (updatesOf groups.flatten)
  log : Log.run Writer.create ((groupRecords s groups).map Op.add) = some w

theorem Holds.create (s : ℕ) : Holds Writer.create [] s [] := ⟨by simp, rfl, rfl⟩

/-- One more group is written. -/
theorem Holds.append {w : Writer} {mem : MemTable} {s t : ℕ} {groups : List (List Request)}
    (h : Holds w mem s groups) {part : List Request} (hpart : GroupSized (updatesOf part))
    (ht : t = s + (updatesOf groups.flatten).length) :
    ∃ w', addRecord w (WriteBatch.image (t + 1) (updatesOf part)) = some w' ∧
      Holds w' (mem ++ entries (t + 1) (updatesOf part)) s (groups ++ [part]) := by
  have hrecords : groupRecords s (groups ++ [part]) =
      groupRecords s groups ++ [WriteBatch.image (t + 1) (updatesOf part)] := by
    rw [groupRecords, List.map_append, logRecords_append, ← updatesOf_flatten, ← ht]
    rfl
  obtain ⟨w', -, hrun, -⟩ := run_adds_cut (groupRecords s (groups ++ [part])) true 0
  refine ⟨w', ?_, ?_, ?_, hrun⟩
  · rw [hrecords, List.map_append, LevelDb.run_append, h.log, Option.bind_some,
      List.map_singleton, Log.run] at hrun
    cases hadd : Log.addRecord w (WriteBatch.image (t + 1) (updatesOf part)) with
    | none => rw [hadd] at hrun; exact absurd hrun (by simp)
    | some w'' => rw [hadd] at hrun; exact hrun
  · intro g hg
    rcases List.mem_append.mp hg with hg | hg
    · exact h.sized g hg
    · rw [List.mem_singleton.mp hg]
      exact hpart
  · have hshift : s + 1 + (updatesOf groups.flatten).length = t + 1 := by omega
    rw [List.flatten_append, List.flatten_singleton, updatesOf_append, entries_append, ← h.mem,
      hshift]

/-- What a group leaves behind. -/
theorem Db.writeGroup_eq {db : Db} {batch group : WriteBatch} {sync : Bool}
    {ws : List QueuedWriter} {taken : ℕ} {us : List Update} {log : Writer}
    (hgroup : buildBatchGroup batch sync ws = (group, taken)) (hcarries : group.Carries us)
    (hus : GroupSized us) (hend : db.lastSequence + us.length < 2 ^ 63)
    (hadd : addRecord db.log (WriteBatch.image (db.lastSequence + 1) us) = some log) :
    db.writeGroup batch sync ws = some { db with
      lastSequence := db.lastSequence + us.length
      log := log
      mem := db.mem ++ entries (db.lastSequence + 1) us
      queue := ws.drop taken
      answers := db.answers ++ List.replicate (taken + 1) none } := by
  have hseq : (db.lastSequence + 1) % 2 ^ 64 = db.lastSequence + 1 := Nat.mod_eq_of_lt (by omega)
  have hrep := hcarries.setSequence (db.lastSequence + 1)
  have hcount : (group.setSequence (db.lastSequence + 1)).count = us.length :=
    WriteBatch.Carries.count ⟨_, hrep⟩ hus.1
  have hins := WriteBatch.insertInto_image hrep hus.2 hus.1 (by omega) db.mem
  have hlast : (((db.lastSequence : ℤ) + us.length) % 2 ^ 64).toNat =
      db.lastSequence + us.length := by omega
  rw [Db.writeGroup, hgroup]
  dsimp only
  rw [hseq, hrep, hadd]
  dsimp only
  rw [hcount, hlast, hins]

/-! ### What holds in every execution -/

/-- The groups of calls written so far, log by log. -/
structure History where
  closed : List (List (List Request))
  current : List (List Request)

/-- The calls of closed logs. -/
def callsOf (logs : List (List (List Request))) : List Request := logs.flatten.flatten

theorem callsOf_append (logs : List (List (List Request))) (groups : List (List Request)) :
    callsOf (logs ++ [groups]) = callsOf logs ++ groups.flatten := by
  simp [callsOf]

def History.calls (h : History) : List Request := callsOf h.closed ++ h.current.flatten

theorem History.calls_switch (h : History) :
    History.calls ⟨h.closed ++ [h.current], []⟩ = h.calls := by
  simp [History.calls, callsOf_append]

theorem History.calls_concat (h : History) (part : List Request) :
    History.calls ⟨h.closed, h.current ++ [part]⟩ = h.calls ++ part := by
  simp [History.calls]

theorem History.length_updatesOf_calls (h : History) :
    (updatesOf h.calls).length =
      (updatesOf (callsOf h.closed)).length + (updatesOf h.current.flatten).length := by
  rw [History.calls, updatesOf_append, List.length_append]

/-- What is written is added to the last log, or begins a new one. -/
def History.Grows (h h' : History) : Prop :=
  (h.closed = h'.closed ∧ h.current <+: h'.current) ∨
    ∃ log, h.closed ++ [log] <+: h'.closed ∧ h.current <+: log

theorem History.Grows.refl (h : History) : h.Grows h := .inl ⟨rfl, List.prefix_rfl⟩

theorem History.Grows.trans {h h' h'' : History} (h₁ : h.Grows h') (h₂ : h'.Grows h'') :
    h.Grows h'' := by
  obtain ⟨closed, current⟩ := h
  rcases h₁ with ⟨rfl, hcur⟩ | ⟨log, hlog, hcur⟩
  · rcases h₂ with ⟨hclosed, hcur'⟩ | ⟨log', hlog', hcur'⟩
    · exact .inl ⟨hclosed, hcur.trans hcur'⟩
    · exact .inr ⟨log', hlog', hcur.trans hcur'⟩
  · rcases h₂ with ⟨hclosed, hcur'⟩ | ⟨log', hlog', hcur'⟩
    · exact .inr ⟨log, hclosed ▸ hlog, hcur⟩
    · exact .inr ⟨log, hlog.trans ((List.prefix_append _ _).trans hlog'), hcur⟩

/-- The calls of the logs `older` are in table files; a log closed after them is the one
of the immutable memtable. -/
structure Db.Archived (db : Db) (closed older : List (List (List Request))) : Prop where
  tables : db.tables.flatten = entries 1 (updatesOf (callsOf older))
  manifest : (updatesOf (callsOf older)).length ≤ db.manifestSequence
  tabled : db.imm = none → closed = older
  holds : ∀ imm, db.imm = some imm → ∃ groups, closed = older ++ [groups] ∧
    Holds imm.log imm.mem (updatesOf (callsOf older)).length groups

/-- Only the table files, the descriptor and the immutable memtable count. -/
theorem Db.Archived.of_eq {db db' : Db} {closed older : List (List (List Request))}
    (har : db.Archived closed older) (htables : db'.tables = db.tables)
    (hmanifest : db'.manifestSequence = db.manifestSequence) (himm : db'.imm = db.imm) :
    db'.Archived closed older where
  tables := by rw [htables, har.tables]
  manifest := by rw [hmanifest]; exact har.manifest
  tabled := by rw [himm]; exact har.tabled
  holds := by rw [himm]; exact har.holds

/-- The calls `rs` have arrived and those of the history have been written; `idle` are
answered calls without a batch since the last record, and `rest` is waiting. -/
structure Db.Written (db : Db) (rs : List Request) (h : History) (idle rest : List Request) :
    Prop where
  calls : rs = h.calls ++ (idle ++ rest)
  idle_updates : updatesOf idle = []
  queue : db.queue = rest.map Request.writer
  answers : db.answers = List.replicate (h.calls.length + idle.length) none
  logfileNumber : db.logfileNumber = h.closed.length
  lastSequence : db.lastSequence = (updatesOf h.calls).length
  manifest : db.manifestSequence ≤ db.lastSequence
  current : Holds db.log db.mem (updatesOf (callsOf h.closed)).length h.current
  archived : ∃ older, db.Archived h.closed older

theorem Db.create_written : Db.create.Written [] ⟨[], []⟩ [] [] where
  calls := rfl
  idle_updates := rfl
  queue := rfl
  answers := rfl
  logfileNumber := rfl
  lastSequence := rfl
  manifest := le_rfl
  current := Holds.create 0
  archived := ⟨[], rfl, le_rfl, fun _ => rfl, fun _ h => absurd h (by simp [Db.create])⟩

namespace Db.Written

variable {db : Db} {rs idle rest : List Request} {h : History}

theorem answers_length (hw : db.Written rs h idle rest) :
    db.answers.length = rs.length - db.queue.length := by
  rw [hw.answers, hw.queue, hw.calls]
  simp only [List.length_replicate, List.length_append, List.length_map]
  omega

/-- What the memtables and the table files hold, in terms of the history. -/
theorem contents_eq (hw : db.Written rs h idle rest) :
    db.contents = entries 1 (updatesOf h.calls) := by
  obtain ⟨older, har⟩ := hw.archived
  have hclosed : db.tables.flatten ++ db.imm.elim [] Immutable.mem =
      entries 1 (updatesOf (callsOf h.closed)) := by
    cases himm : db.imm with
    | none =>
      rw [har.tabled himm, Option.elim_none, List.append_nil]
      exact har.tables
    | some imm =>
      obtain ⟨groups, hgroups, hholds⟩ := har.holds imm himm
      rw [hgroups, Option.elim_some, har.tables, hholds.mem, callsOf_append, updatesOf_append,
        entries_append, Nat.add_comm 1]
  rw [contents, ← List.append_assoc, hclosed, hw.current.mem, History.calls, updatesOf_append,
    entries_append, Nat.add_comm 1]

/-- The answered calls are those that arrived first. -/
theorem answered (hw : db.Written rs h idle rest) :
    updatesOf (rs.take db.answers.length) = updatesOf h.calls := by
  have hlen : db.answers.length = (h.calls ++ idle).length := by
    rw [hw.answers, List.length_replicate, List.length_append]
  rw [hlen, hw.calls, ← List.append_assoc, List.take_left, updatesOf_append, hw.idle_updates,
    List.append_nil]

theorem arrive (hw : db.Written rs h idle rest) (r : Request) :
    ({ db with queue := db.queue ++ [r.writer] } : Db).Written (rs ++ [r]) h idle
      (rest ++ [r]) where
  calls := by rw [hw.calls]; simp only [List.append_assoc]
  idle_updates := hw.idle_updates
  queue := by rw [hw.queue, List.map_append]; rfl
  answers := hw.answers
  logfileNumber := hw.logfileNumber
  lastSequence := hw.lastSequence
  manifest := hw.manifest
  current := hw.current
  archived := hw.archived.imp fun _ har => har.of_eq rfl rfl rfl

theorem compact (hw : db.Written rs h idle rest) :
    db.compactMemTable.Written rs h idle rest ∧ db.compactMemTable.imm = none := by
  cases himm : db.imm with
  | none =>
    rw [compactMemTable, himm]
    exact ⟨hw, himm⟩
  | some imm =>
    obtain ⟨older, har⟩ := hw.archived
    obtain ⟨groups, hgroups, hholds⟩ := har.holds imm himm
    have htables : (if imm.mem.isEmpty then db.tables else db.tables ++ [imm.mem]).flatten =
        db.tables.flatten ++ imm.mem := by
      split_ifs with hempty
      · rw [List.isEmpty_iff.mp hempty, List.append_nil]
      · rw [List.flatten_append, List.flatten_singleton]
    have hcalls : updatesOf (callsOf h.closed) =
        updatesOf (callsOf older) ++ updatesOf groups.flatten := by
      rw [hgroups, callsOf_append, updatesOf_append]
    rw [compactMemTable, himm]
    refine ⟨⟨hw.calls, hw.idle_updates, hw.queue, hw.answers, hw.logfileNumber, hw.lastSequence,
      le_rfl, hw.current, h.closed, ?_, ?_, fun _ => rfl, fun _ hsome => absurd hsome (by simp)⟩,
      rfl⟩
    · rw [htables, har.tables, hholds.mem, hcalls, entries_append, Nat.add_comm 1]
    · rw [hw.lastSequence, h.length_updatesOf_calls]
      exact Nat.le_add_right _ _

/-- A new log and a new memtable. -/
theorem switch (hw : db.Written rs h idle rest) (himm : db.imm = none) :
    ({ db with
      logfileNumber := db.logfileNumber + 1
      log := Writer.create
      imm := some ⟨db.log, db.mem⟩
      mem := [] } : Db).Written rs ⟨h.closed ++ [h.current], []⟩ idle rest := by
  obtain ⟨older, har⟩ := hw.archived
  have holder : h.closed = older := har.tabled himm
  have hcalls := h.calls_switch
  refine ⟨by rw [hcalls]; exact hw.calls, hw.idle_updates, hw.queue,
    by rw [hcalls]; exact hw.answers, ?_, by rw [hcalls]; exact hw.lastSequence, hw.manifest,
    Holds.create _, h.closed, ?_, ?_, fun hnone => absurd hnone (by simp), ?_⟩
  · rw [hw.logfileNumber, List.length_append, List.length_singleton]
  · rw [holder]
    exact har.tables
  · rw [holder]
    exact har.manifest
  · intro imm hsome
    obtain rfl : (⟨db.log, db.mem⟩ : Immutable) = imm := Option.some.inj hsome
    exact ⟨h.current, rfl, hw.current⟩

/-- Room is made by a switch or is there; a caller waits for a compaction only, or
because of level 0. -/
theorem makeRoom (hw : db.Written rs h idle rest) (force stop : Bool) :
    (db.makeRoomForWrite o force stop = none ∧ (db.imm = none → stop = true)) ∨
      ∃ db' h', db.makeRoomForWrite o force stop = some db' ∧ h.Grows h' ∧
        db'.Written rs h' idle rest := by
  rw [makeRoomForWrite]
  split_ifs with hroom himm hstop
  · exact .inr ⟨db, h, rfl, .refl h, hw⟩
  · exact .inl ⟨rfl, fun hnone => by simp [hnone] at himm⟩
  · exact .inl ⟨rfl, fun _ => hstop⟩
  · have hnone : db.imm = none := by simpa using himm
    exact .inr ⟨_, ⟨h.closed ++ [h.current], []⟩, rfl,
      .inr ⟨h.current, List.prefix_rfl, List.prefix_rfl⟩, hw.switch hnone⟩

/-- A call without a batch is answered. -/
theorem answerIdle {r : Request} (hw : db.Written rs h idle (r :: rest)) (hr : r.updates = none) :
    ({ db with queue := rest.map Request.writer, answers := db.answers ++ [none] } : Db).Written
      rs h (idle ++ [r]) rest where
  calls := by rw [hw.calls]; simp
  idle_updates := by simp [hw.idle_updates, hr]
  queue := rfl
  answers := by
    rw [hw.answers, ← List.replicate_succ', List.length_append, List.length_singleton]
    rfl
  logfileNumber := hw.logfileNumber
  lastSequence := hw.lastSequence
  manifest := hw.manifest
  current := hw.current
  archived := hw.archived.imp fun _ har => har.of_eq rfl rfl rfl

/-- One more group is written, with the idle calls before it. -/
theorem writeGroup {r : Request} {us : List Update} (hw : db.Written rs h idle (r :: rest))
    (hr : r.updates = some us) (hrs : ∀ t ∈ rs, t.Sized)
    (htotal : (updatesOf rs).length < 2 ^ 56) :
    ∃ db' part rest',
      db.writeGroup (WriteBatch.filled us) r.sync (rest.map Request.writer) = some db' ∧
      db'.Written rs ⟨h.closed, h.current ++ [part]⟩ [] rest' ∧ rest'.length ≤ rest.length := by
  have hrest : ∀ t ∈ r :: rest, t.Sized := fun t ht => hrs t (by
    rw [hw.calls]
    exact List.mem_append_right _ (List.mem_append_right _ ht))
  have hus := hrest r List.mem_cons_self us hr
  obtain ⟨group, taken, hgroup, htaken, hcarries, hlen⟩ := buildBatchGroup_carries us hus.1
    r.sync rest (fun t ht => hrest t (List.mem_cons_of_mem r ht))
  obtain ⟨part, hpart⟩ : ∃ part, part = idle ++ r :: rest.take taken := ⟨_, rfl⟩
  have hupdates : updatesOf part = us ++ updatesOf (rest.take taken) := by
    simp [hpart, hw.idle_updates, hr]
  rw [← hupdates] at hcarries hlen
  have hcalls : rs = h.calls ++ (part ++ rest.drop taken) := by
    rw [hw.calls, hpart]
    simp
  have hsum : (updatesOf rs).length = db.lastSequence + (updatesOf part).length +
      (updatesOf (rest.drop taken)).length := by
    rw [hcalls, hw.lastSequence]
    simp only [updatesOf_append, List.length_append]
    omega
  have hsized : GroupSized (updatesOf part) := by
    refine ⟨hlen, updatesOf_sized fun t ht => hrs t ?_⟩
    rw [hcalls]
    exact List.mem_append_right _ (List.mem_append_left _ ht)
  have hlast := hw.lastSequence.trans h.length_updatesOf_calls
  obtain ⟨log, hadd, hholds⟩ := hw.current.append hsized hlast
  have hwrite := Db.writeGroup_eq hgroup hcarries hsized (by omega) hadd
  have hall := h.calls_concat part
  refine ⟨_, part, rest.drop taken, hwrite, ?_, by rw [List.length_drop]; omega⟩
  refine ⟨by rw [hcalls, hall]; simp, rfl, (List.map_drop ..).symm, ?_, hw.logfileNumber, ?_, ?_,
    hholds, hw.archived.imp fun _ har => har.of_eq rfl rfl rfl⟩
  · have hcount : part.length = idle.length + (taken + 1) := by
      rw [hpart, List.length_append, List.length_cons, List.length_take, Nat.min_eq_left htaken]
    rw [hall, hw.answers, ← List.replicate_add, List.length_append, hcount, Nat.add_assoc]
    rfl
  · rw [hall, updatesOf_append, List.length_append, hw.lastSequence]
  · exact hw.manifest.trans (Nat.le_add_right _ _)

/-- The caller at the front waits, or it is answered. -/
theorem lead (hw : db.Written rs h idle rest) (stop : Bool) (hrs : ∀ r ∈ rs, r.Sized)
    (htotal : (updatesOf rs).length < 2 ^ 56) :
    ∃ db' h' idle' rest', db.lead o stop = some db' ∧ db'.Written rs h' idle' rest' ∧ h.Grows h' ∧
      (db.imm = none → stop = false → rest'.length ≤ rest.length - 1) := by
  cases rest with
  | nil =>
    refine ⟨db, h, idle, [], ?_, hw, .refl h, fun _ _ => le_rfl⟩
    rw [Db.lead, hw.queue]
    rfl
  | cons r rest =>
    have hqueue : db.queue = r.writer :: rest.map Request.writer := hw.queue
    rw [Db.lead, hqueue]
    dsimp only
    rcases hw.makeRoom o r.writer.batch.isNone stop with
      ⟨hwait, hwhy⟩ | ⟨db₁, h₁, hroom, hgrows, hw₁⟩
    · rw [hwait]
      refine ⟨db, h, idle, r :: rest, rfl, hw, .refl h, fun himm hstop => ?_⟩
      exact absurd (hwhy himm) (by simp [hstop])
    · rw [hroom]
      dsimp only
      cases hups : r.updates with
      | none =>
        rw [Request.writer_batch_none hups]
        exact ⟨_, h₁, _, rest, rfl, hw₁.answerIdle hups, hgrows, fun _ _ => le_rfl⟩
      | some us =>
        obtain ⟨db₂, part, rest', hwrite, hw₂, hshort⟩ := hw₁.writeGroup hups hrs htotal
        rw [Request.writer_batch_some hups]
        exact ⟨db₂, _, [], rest', hwrite, hw₂,
          hgrows.trans (.inl ⟨rfl, List.prefix_append _ _⟩), fun _ _ => hshort⟩

theorem step (hw : db.Written rs h idle rest) (action : Action)
    (hrs : ∀ r ∈ rs ++ requestsOf [action], r.Sized)
    (htotal : (updatesOf (rs ++ requestsOf [action])).length < 2 ^ 56) :
    ∃ db' h' idle' rest', db.step o action = some db' ∧
      db'.Written (rs ++ requestsOf [action]) h' idle' rest' ∧ h.Grows h' := by
  cases action with
  | arrive r => exact ⟨_, h, idle, rest ++ [r], rfl, hw.arrive r, .refl h⟩
  | lead stop =>
    rw [requestsOf, requestsOf, List.append_nil] at hrs htotal ⊢
    obtain ⟨db', h', idle', rest', hlead, hw', hgrows, -⟩ := hw.lead o stop hrs htotal
    exact ⟨db', h', idle', rest', hlead, hw', hgrows⟩
  | compact =>
    rw [requestsOf, requestsOf, List.append_nil]
    exact ⟨_, h, idle, rest, rfl, hw.compact.1, .refl h⟩

theorem run (hw : db.Written rs h idle rest) (actions : List Action)
    (hrs : ∀ r ∈ rs ++ requestsOf actions, r.Sized)
    (htotal : (updatesOf (rs ++ requestsOf actions)).length < 2 ^ 56) :
    ∃ db' h' idle' rest', db.run o actions = some db' ∧
      db'.Written (rs ++ requestsOf actions) h' idle' rest' ∧ h.Grows h' := by
  induction actions generalizing db rs h idle rest with
  | nil => exact ⟨db, h, idle, rest, rfl, by simpa [requestsOf] using hw, .refl h⟩
  | cons action actions ih =>
    have hcons : rs ++ requestsOf (action :: actions) =
        rs ++ requestsOf [action] ++ requestsOf actions := by
      rw [List.append_assoc, ← requestsOf_append, List.singleton_append]
    rw [hcons] at hrs htotal ⊢
    have hfirst : (updatesOf (rs ++ requestsOf [action])).length < 2 ^ 56 := by
      rw [updatesOf_append, List.length_append] at htotal
      omega
    obtain ⟨db₁, h₁, idle₁, rest₁, hstep, hw₁, hgrows⟩ :=
      hw.step o action (fun r hr => hrs r (List.mem_append_left _ hr)) hfirst
    obtain ⟨db₂, h₂, idle₂, rest₂, hrun, hw₂, hgrows'⟩ := ih hw₁ hrs htotal
    exact ⟨db₂, h₂, idle₂, rest₂, (Db.run_cons o hstep actions).trans hrun, hw₂,
      hgrows.trans hgrows'⟩

end Db.Written

/-! ### Every call is answered -/

/-- The immutable memtable is compacted and the caller at the front works, `n` times,
with room on level 0. -/
def rounds : ℕ → List Action
  | 0 => []
  | n + 1 => .compact :: .lead false :: rounds n

theorem Db.Written.rounds {db : Db} {rs idle rest : List Request} {h : History}
    (hw : db.Written rs h idle rest) (hrs : ∀ r ∈ rs, r.Sized)
    (htotal : (updatesOf rs).length < 2 ^ 56) (n : ℕ) (hn : rest.length ≤ n) :
    ∃ db' h' idle', db.run o (LevelDb.rounds n) = some db' ∧ db'.Written rs h' idle' [] := by
  induction n generalizing db h idle rest with
  | zero =>
    obtain rfl : rest = [] := List.eq_nil_of_length_eq_zero (by omega)
    exact ⟨db, h, idle, rfl, hw⟩
  | succ n ih =>
    obtain ⟨hw₁, himm⟩ := hw.compact
    obtain ⟨db₂, h₂, idle₂, rest₂, hlead, hw₂, -, hless⟩ := hw₁.lead o false hrs htotal
    have hshort := hless himm rfl
    obtain ⟨db₃, h₃, idle₃, hrun, hw₃⟩ := ih hw₂ (by omega)
    have hcompact : db.step o .compact = some db.compactMemTable := rfl
    have hstep : db.compactMemTable.step o (.lead false) = some db₂ := hlead
    refine ⟨db₃, h₃, idle₃, ?_, hw₃⟩
    rw [LevelDb.rounds, Db.run_cons o hcompact, Db.run_cons o hstep, hrun]

end FreqAnalysis.LevelDb
