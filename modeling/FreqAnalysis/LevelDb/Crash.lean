import FreqAnalysis.LevelDb.Writes

/-!
# A crash of the database

`DBImpl::Recover` after a crash in any moment of an execution. The table files and the
descriptor are on disk; of each log that is not yet in a table file the crash leaves
some first bytes. There are at most two such logs, that of the immutable memtable
and the current one, and they are read in the order in which they were written.
-/

namespace FreqAnalysis.LevelDb

open Base Log

section

variable (o : RecoveryOptions)

/-- The loop of `Recover` over the log files. Only the last one is reused. -/
def recoverLogs : List (List Byte) → Recovery → Option Recovery
  | [], st => some st
  | file :: files, st =>
    match recoverLogFile { o with reuseLogs := o.reuseLogs && files.isEmpty } file
      st.maxSequence with
    | none => none
    | some found =>
      let st := { found with level0 := st.level0 ++ found.level0 }
      if st.status.isSome then some st else recoverLogs files st

/-- What a crash leaves of the log of the immutable memtable, `cut` bytes of each log. -/
def Db.oldLog (db : Db) (cut : ℕ → ℕ) : List (List Byte) :=
  match db.imm with
  | none => []
  | some imm => [imm.log.dest.take (cut (db.logfileNumber - 1))]

/-- `Recover` after a crash: what the logs give, and the last sequence number. -/
def Db.recover (db : Db) (cut : ℕ → ℕ) : Option (Recovery × ℕ) :=
  match recoverLogs o (db.oldLog cut ++ [db.log.dest.take (cut db.logfileNumber)])
    ⟨none, none, [], 0⟩ with
  | none => none
  | some st =>
    some (st, if st.status.isNone ∧ db.manifestSequence < st.maxSequence then st.maxSequence
      else db.manifestSequence)

/-- The log of the immutable memtable is on disk whole, when there is one. -/
def Db.OldLogWhole (db : Db) (cut : ℕ → ℕ) : Prop :=
  ∀ imm, db.imm = some imm → imm.log.dest.length ≤ cut (db.logfileNumber - 1)

/-! ### One log -/

theorem Recovery.finish_mem (st : Recovery) (h : o.reuseLogs = false) :
    (st.finish o).mem = none := by
  rw [Recovery.finish]
  split_ifs with hbad hkeep
  · rfl
  · simp [h] at hkeep
  · rfl

theorem recoverLogFile_mem {file : List Byte} {maxSequence : ℕ} {st : Recovery}
    (h : recoverLogFile o file maxSequence = some st) (ho : o.reuseLogs = false) :
    st.mem = none := by
  rw [recoverLogFile] at h
  split at h
  · simp at h
  · next st' hloop =>
    rw [← Option.some.inj h]
    exact st'.finish_mem o ho

theorem updatesOf_mono {rs rs' : List Request} (h : rs <+: rs') :
    updatesOf rs <+: updatesOf rs' := h.flatMap _

/-- The groups whose record is in the file come back, and all that were written when the
log had no more bytes than are left are among them. -/
theorem Holds.recover {w : Writer} {mem : MemTable} {s : ℕ} {groups : List (List Request)}
    (h : Holds w mem s groups) (n maxSequence : ℕ) (hle : maxSequence ≤ s)
    (hend : s + (updatesOf groups.flatten).length < 2 ^ 63) :
    ∃ k st, recoverLogFile o (w.dest.take n) maxSequence = some st ∧
      st.status = none ∧ st.entries = entries (s + 1) (updatesOf (groups.take k).flatten) ∧
      st.maxSequence =
        (if k = 0 then maxSequence else s + (updatesOf (groups.take k).flatten).length) ∧
      ∀ w' mem' groups', Holds w' mem' s groups' → groups' <+: groups →
        (w'.dest.length ≤ n ↔ groups'.length ≤ k) := by
  obtain ⟨w₀, k, hlog, hk, hread, hcut⟩ := run_adds_cut (groupRecords s groups) true n
  obtain rfl : w = w₀ := Option.some.inj (h.log.symm.trans hlog)
  have hlen : (groupRecords s groups).length = groups.length := by
    rw [groupRecords, logRecords_length, List.length_map]
  rw [groupRecords, logRecords_take, ← List.map_take] at hread
  have hflat := updatesOf_flatten (groups.take k)
  have hshort : (updatesOf (groups.take k).flatten).length ≤ (updatesOf groups.flatten).length :=
    (updatesOf_mono (List.take_prefix k groups).flatten).length_le
  obtain ⟨st, hrecover, hok, hentries, hmax⟩ := recoverLogFile_logRecords o _ s maxSequence _
    hread
    (fun us hus => by
      obtain ⟨g, hg, rfl⟩ := List.mem_map.mp hus
      exact h.sized g (List.mem_of_mem_take hg))
    hle (by rw [← hflat]; omega)
  rw [← hflat] at hentries hmax
  refine ⟨k, st, hrecover, hok, hentries, ?_, ?_⟩
  · have hnil : (groups.take k).map updatesOf = [] ↔ k = 0 := by
      rw [List.map_eq_nil_iff, ← List.length_eq_zero_iff, List.length_take]
      omega
    simp only [hmax, hnil]
  · intro w' mem' groups' h' hprefix
    have hle' := hprefix.length_le
    obtain ⟨w₁, hlog', hiff⟩ := hcut groups'.length (by omega)
    -- the log of that moment is the one of the first records
    have hfirst : (groupRecords s groups).take groups'.length = groupRecords s groups' := by
      rw [groupRecords, logRecords_take, ← List.map_take, ← List.prefix_iff_eq_take.mp hprefix]
      rfl
    rw [hfirst] at hlog'
    obtain rfl : w' = w₁ := Option.some.inj (h'.log.symm.trans hlog')
    exact hiff

/-! ### The logs one after the other -/

/-- What recovery has when it comes to the current log: the updates of the calls `part`,
which are the first of the closed logs. -/
structure Db.ClosedPart (db : Db) (closed : List (List (List Request))) (cut : ℕ → ℕ)
    (st : Recovery) (part : List Request) : Prop where
  entries_eq : db.tables.flatten ++ st.level0.flatten = entries 1 (updatesOf part)
  isPrefix : part <+: callsOf closed
  maxSequence : st.maxSequence ≤ (updatesOf (callsOf closed)).length
  numbered : (updatesOf part).length ≤ max db.manifestSequence st.maxSequence
  whole : db.OldLogWhole cut → part = callsOf closed
  /-- a log that was on disk up to some moment has the calls of that moment -/
  kept : ∀ logs log w mem groups, logs ++ [log] <+: closed → groups <+: log →
    Holds w mem (updatesOf (callsOf logs)).length groups → w.dest.length ≤ cut logs.length →
    callsOf logs ++ groups.flatten <+: part

/-- The calls of a moment whose log is closed are among those of the closed logs. -/
theorem callsOf_moment {logs closed : List (List (List Request))} {log groups : List (List Request)}
    (hlogs : logs ++ [log] <+: closed) (hgroups : groups <+: log) :
    callsOf logs ++ groups.flatten <+: callsOf closed := by
  have hmore : callsOf (logs ++ [log]) <+: callsOf closed := hlogs.flatten.flatten
  rw [callsOf_append] at hmore
  exact ((List.prefix_append_right_inj _).mpr hgroups.flatten).trans hmore

/-- A log that is not the last one adds its memtables to the table files. -/
theorem recoverLogs_cons {file next : List Byte} {st found : Recovery}
    (h : recoverLogFile { o with reuseLogs := false } file st.maxSequence = some found)
    (hok : found.status = none) :
    recoverLogs o [file, next] st =
      recoverLogs o [next] { found with level0 := st.level0 ++ found.level0 } := by
  rw [recoverLogs]
  simp only [List.isEmpty_cons, Bool.and_false, h, hok, Option.isSome_none, Bool.false_eq_true,
    if_false]

theorem Db.Archived.recover {db : Db} {closed older : List (List (List Request))}
    (har : db.Archived closed older) (hnumber : db.logfileNumber = closed.length) (cut : ℕ → ℕ)
    (hend : (updatesOf (callsOf closed)).length < 2 ^ 63) (file : List Byte) :
    ∃ st part,
      recoverLogs o (db.oldLog cut ++ [file]) ⟨none, none, [], 0⟩ = recoverLogs o [file] st ∧
      db.ClosedPart closed cut st part := by
  cases himm : db.imm with
  | none =>
    obtain rfl : closed = older := har.tabled himm
    refine ⟨⟨none, none, [], 0⟩, callsOf closed, ?_, ?_, List.prefix_rfl, Nat.zero_le _,
      har.manifest.trans (le_max_left _ _), fun _ => rfl, ?_⟩
    · rw [Db.oldLog, himm]
      rfl
    · rw [List.flatten_nil, List.append_nil, har.tables]
    · intro logs log w mem groups hlogs hgroups _ _
      exact callsOf_moment hlogs hgroups
  | some imm =>
    obtain ⟨groups, rfl, hholds⟩ := har.holds imm himm
    rw [callsOf_append, updatesOf_append, List.length_append] at hend
    obtain ⟨k, found, hfound, hok, hentries, hmax, hcut⟩ :=
      hholds.recover { o with reuseLogs := false } (cut (db.logfileNumber - 1)) 0
        (Nat.zero_le _) hend
    have hmem : found.mem = none := recoverLogFile_mem _ hfound rfl
    have hshort : (updatesOf (groups.take k).flatten).length ≤ (updatesOf groups.flatten).length :=
      (updatesOf_mono (List.take_prefix k groups).flatten).length_le
    have hlevel0 : found.level0.flatten = found.entries := by simp [Recovery.entries, hmem]
    have hlast : db.logfileNumber - 1 = older.length := by
      rw [hnumber, List.length_append, List.length_singleton]
      omega
    refine ⟨{ found with level0 := [] ++ found.level0 },
      callsOf older ++ (groups.take k).flatten, ?_, ?_, ?_, ?_, ?_, ?_, ?_⟩
    · rw [Db.oldLog, himm]
      exact recoverLogs_cons o hfound hok
    · rw [List.nil_append, hlevel0, hentries, har.tables, updatesOf_append, entries_append,
        Nat.add_comm 1]
    · rw [callsOf_append]
      exact (List.prefix_append_right_inj _).mpr (List.take_prefix k groups).flatten
    · rw [callsOf_append, updatesOf_append, List.length_append]
      dsimp only
      split_ifs at hmax <;> omega
    · rw [updatesOf_append, List.length_append]
      have hmanifest := har.manifest
      dsimp only
      split_ifs at hmax with hzero
      · subst hzero
        rw [List.take_zero, List.flatten_nil, updatesOf_nil, List.length_nil]
        omega
      · omega
    · intro hwhole
      have hall := (hcut _ _ _ hholds List.prefix_rfl).mp (hwhole imm himm)
      rw [callsOf_append, List.take_of_length_le hall]
    · intro logs log w mem gs hlogs hgs hw hbytes
      rcases List.prefix_concat_iff.mp hlogs with heq | hprefix
      · obtain ⟨rfl, hlog⟩ := List.append_inj' heq rfl
        obtain rfl : log = groups := by simpa using hlog
        rw [← hlast] at hbytes
        have hfirst : gs <+: log.take k :=
          List.prefix_take_iff.mpr ⟨hgs, (hcut _ _ _ hw hgs).mp hbytes⟩
        exact (List.prefix_append_right_inj _).mpr hfirst.flatten
      · exact (callsOf_moment hprefix hgs).trans (List.prefix_append _ _)

/-- What is recovered after a crash: the first calls of the closed logs and the first `k`
groups of the current one. -/
structure Db.Recovers (db : Db) (h : History) (cut : ℕ → ℕ) (recovered : MemTable) (last : ℕ)
    (part : List Request) (k : ℕ) : Prop where
  entries_eq : recovered = entries 1 (updatesOf part) ++
    entries ((updatesOf (callsOf h.closed)).length + 1) (updatesOf (h.current.take k).flatten)
  isPrefix : part <+: callsOf h.closed
  part_le : (updatesOf part).length ≤ last
  current_le : k ≠ 0 → (updatesOf (callsOf h.closed ++ (h.current.take k).flatten)).length ≤ last
  last_le : last ≤ db.lastSequence
  whole : db.OldLogWhole cut → part = callsOf h.closed
  closed : ∀ logs log w mem groups, logs ++ [log] <+: h.closed → groups <+: log →
    Holds w mem (updatesOf (callsOf logs)).length groups → w.dest.length ≤ cut logs.length →
    callsOf logs ++ groups.flatten <+: part
  current : ∀ w mem groups, Holds w mem (updatesOf (callsOf h.closed)).length groups →
    groups <+: h.current → w.dest.length ≤ cut h.closed.length → groups.length ≤ k

theorem Db.Written.recover {db : Db} {rs idle rest : List Request} {h : History}
    (hw : db.Written rs h idle rest) (cut : ℕ → ℕ) (hend : (updatesOf h.calls).length < 2 ^ 63) :
    ∃ st last part k, db.recover o cut = some (st, last) ∧ st.status = none ∧
      db.Recovers h cut (db.tables.flatten ++ st.entries) last part k := by
  obtain ⟨older, har⟩ := hw.archived
  have hcalls := h.length_updatesOf_calls
  obtain ⟨st, part, hlogs, hpart⟩ := har.recover o hw.logfileNumber cut (by omega)
    (db.log.dest.take (cut db.logfileNumber))
  obtain ⟨k, found, hfound, hok, hentries, hmax, hcut⟩ := hw.current.recover
    { o with reuseLogs := o.reuseLogs && true } (cut db.logfileNumber) st.maxSequence
    hpart.maxSequence (by omega)
  have hshort : (updatesOf (h.current.take k).flatten).length ≤
      (updatesOf h.current.flatten).length :=
    (updatesOf_mono (List.take_prefix k h.current).flatten).length_le
  have hgrown : st.maxSequence ≤ found.maxSequence := by
    have := hpart.maxSequence
    split_ifs at hmax <;> omega
  have hlast : (if found.status.isNone ∧ db.manifestSequence < found.maxSequence then
      found.maxSequence else db.manifestSequence) = max db.manifestSequence found.maxSequence := by
    rw [hok]
    simp only [Option.isNone_none, true_and]
    split_ifs <;> omega
  refine ⟨{ found with level0 := st.level0 ++ found.level0 },
    max db.manifestSequence found.maxSequence, part, k, ?_, hok, ?_, hpart.isPrefix, ?_, ?_, ?_,
    hpart.whole, hpart.kept, ?_⟩
  · have hall : recoverLogs o [db.log.dest.take (cut db.logfileNumber)] st =
        some { found with level0 := st.level0 ++ found.level0 } := by
      rw [recoverLogs]
      simp only [List.isEmpty_nil, hfound, hok, Option.isSome_none, Bool.false_eq_true, if_false,
        recoverLogs]
    rw [Db.recover, hlogs, hall]
    dsimp only
    rw [hlast]
  · rw [← hentries, ← hpart.entries_eq, Recovery.entries, Recovery.entries, List.flatten_append]
    simp only [List.append_assoc]
  · have := hpart.numbered
    omega
  · intro hpos
    rw [if_neg hpos] at hmax
    rw [updatesOf_append, List.length_append]
    omega
  · have hmanifest := hw.manifest
    have hseq := hw.lastSequence
    have := hpart.maxSequence
    split_ifs at hmax <;> omega
  · intro w mem groups hholds hgroups hbytes
    rw [← hw.logfileNumber] at hbytes
    exact (hcut w mem groups hholds hgroups).mp hbytes

end

/-! ### Crashes in any moment -/

theorem entries_mono (s : ℕ) {us vs : List Update} (h : us <+: vs) :
    entries s us <+: entries s vs := by
  obtain ⟨ws, rfl⟩ := h
  rw [entries_append]
  exact List.prefix_append _ _

namespace Db.Recovers

variable {db : Db} {h : History} {cut : ℕ → ℕ} {recovered : MemTable} {last k : ℕ}
  {part : List Request}

/-- With the old log whole, the first calls come back. -/
theorem of_whole (hr : db.Recovers h cut recovered last part k) (hwhole : db.OldLogWhole cut) :
    recovered = entries 1 (updatesOf (callsOf h.closed ++ (h.current.take k).flatten)) := by
  rw [hr.entries_eq, hr.whole hwhole, updatesOf_append, entries_append, Nat.add_comm 1]

/-- The memtable of an earlier moment whose log is on disk comes back; everything that
was in the database then does, unless its log came after one that was cut. -/
theorem moment (hr : db.Recovers h cut recovered last part k) {db' : Db}
    {rs' idle' rest' : List Request} {h' : History} (hw' : db'.Written rs' h' idle' rest')
    (hgrows : h'.Grows h) (hnumber : db.logfileNumber = h.closed.length)
    (hbytes : db'.log.dest.length ≤ cut db'.logfileNumber) :
    db'.mem <:+: recovered ∧
      ((db'.logfileNumber = db.logfileNumber → db.OldLogWhole cut) →
        db'.contents <+: recovered) := by
  have hmem : db'.mem <:+: db'.contents := by
    rw [contents, ← List.append_assoc]
    exact (List.suffix_append _ _).isInfix
  rw [hw'.logfileNumber] at hbytes
  rcases hgrows with ⟨hclosed, hcur⟩ | ⟨log, hlogs, hcur⟩
  · have hholds := hw'.current
    rw [hclosed] at hholds hbytes
    have hk := hr.current _ _ _ hholds hcur hbytes
    have hfirst : h'.current <+: h.current.take k := List.prefix_take_iff.mpr ⟨hcur, hk⟩
    refine ⟨?_, fun hwhole => ?_⟩
    · rw [hr.entries_eq, hholds.mem]
      exact (entries_mono _ (updatesOf_mono hfirst.flatten)).isInfix.trans
        (List.suffix_append _ _).isInfix
    · rw [hr.of_whole (hwhole (by rw [hw'.logfileNumber, hclosed, hnumber])), hw'.contents_eq,
        History.calls, hclosed]
      exact entries_mono 1 (updatesOf_mono
        ((List.prefix_append_right_inj _).mpr hfirst.flatten))
  · have hpart := hr.closed _ _ _ _ _ hlogs hcur hw'.current hbytes
    have hcontents : db'.contents <+: recovered := by
      rw [hr.entries_eq, hw'.contents_eq]
      exact (entries_mono 1 (updatesOf_mono hpart)).trans (List.prefix_append _ _)
    exact ⟨hmem.trans hcontents.isInfix, fun _ => hcontents⟩

end Db.Recovers

theorem Db.Written.calls_le {db : Db} {rs idle rest : List Request} {h : History}
    (hw : db.Written rs h idle rest) : h.calls <+: rs := by
  rw [hw.calls]
  exact List.prefix_append _ _

/-- What an earlier moment of an execution says about a crash at its end. -/
theorem Db.Written.recovered_later (o : DbOptions) {db db' : Db} {rs idle rest : List Request}
    {h : History} {ys : List Action} {cut : ℕ → ℕ} {st : Recovery} {last : ℕ}
    (hw : db'.Written rs h idle rest) (hrun : db'.run o ys = some db)
    (hrs : ∀ r ∈ rs ++ requestsOf ys, r.Sized)
    (htotal : (updatesOf (rs ++ requestsOf ys)).length < 2 ^ 56)
    (hrecover : db.recover o.toRecoveryOptions cut = some (st, last))
    (hbytes : db'.log.dest.length ≤ cut db'.logfileNumber) :
    db'.mem <:+: db.tables.flatten ++ st.entries ∧
      ((db'.logfileNumber = db.logfileNumber → db.OldLogWhole cut) →
        db'.contents <+: db.tables.flatten ++ st.entries) := by
  obtain ⟨db₁, h₁, idle₁, rest₁, hrun₁, hw₁, hgrows⟩ := hw.run o ys hrs htotal
  obtain rfl : db = db₁ := Option.some.inj (hrun.symm.trans hrun₁)
  have hend := (updatesOf_mono hw₁.calls_le).length_le
  obtain ⟨st₁, last₁, part, k, hrecover₁, -, hr⟩ :=
    hw₁.recover o.toRecoveryOptions cut (by omega)
  obtain ⟨rfl, rfl⟩ := Prod.mk.inj (Option.some.inj (hrecover.symm.trans hrecover₁))
  exact hr.moment hw hgrows hw₁.logfileNumber hbytes

/-- Whatever the interleaving of callers and compactions, and whatever a crash leaves of
the log files. Recovery succeeds. It gives the updates of the first `i` calls and those
of the calls from `m` up to `k`, with the sequence numbers they were written with; a gap
between them is possible when the log of the immutable memtable was cut. New sequence
numbers are above all recovered ones. In every earlier moment the calls answered were
those that arrived first, all of them with an OK status and all of them in the database;
and what was in the memtable then is recovered when the log of that moment is on disk.
Once the memtables are compacted, every call is answered. -/
theorem Db.crash_keeps_calls (o : DbOptions) (actions : List Action) (cut : ℕ → ℕ)
    (hsized : ∀ r ∈ requestsOf actions, r.Sized)
    (htotal : (updatesOf (requestsOf actions)).length < 2 ^ 56) :
    ∃ db st last i m k, Db.create.run o actions = some db ∧
      db.recover o.toRecoveryOptions cut = some (st, last) ∧ st.status = none ∧ i ≤ m ∧ m ≤ k ∧
      db.tables.flatten ++ st.entries = entries 1 (updatesOf ((requestsOf actions).take i)) ++
        entries ((updatesOf ((requestsOf actions).take m)).length + 1)
          (updatesOf (((requestsOf actions).take k).drop m)) ∧
      (db.OldLogWhole cut → i = m) ∧
      (updatesOf ((requestsOf actions).take i)).length ≤ last ∧
      (m < k → (updatesOf ((requestsOf actions).take k)).length ≤ last) ∧
      last ≤ db.lastSequence ∧
      (∀ xs ys, actions = xs ++ ys → ∃ db', Db.create.run o xs = some db' ∧
        db'.answers = List.replicate ((requestsOf xs).length - db'.queue.length) none ∧
        db'.contents = entries 1 (updatesOf ((requestsOf xs).take db'.answers.length)) ∧
        (db'.log.dest.length ≤ cut db'.logfileNumber →
          db'.mem <:+: db.tables.flatten ++ st.entries ∧
          ((db'.logfileNumber = db.logfileNumber → db.OldLogWhole cut) →
            db'.contents <+: db.tables.flatten ++ st.entries))) ∧
      ∃ db', db.run o (rounds db.queue.length) = some db' ∧ db'.queue = [] ∧
        db'.contents = entries 1 (updatesOf (requestsOf actions)) := by
  obtain ⟨db, h, idle, rest, hrun, hw, -⟩ := Db.create_written.run o actions hsized htotal
  rw [List.nil_append] at hw
  have hend := (updatesOf_mono hw.calls_le).length_le
  obtain ⟨st, last, part, k, hrecover, hok, hr⟩ :=
    hw.recover o.toRecoveryOptions cut (by omega)
  obtain ⟨taken, htaken⟩ : ∃ taken, taken = (h.current.take k).flatten := ⟨_, rfl⟩
  have hclosed : callsOf h.closed ++ taken <+: requestsOf actions := by
    rw [htaken]
    exact ((List.prefix_append_right_inj _).mpr
      (List.take_prefix k h.current).flatten).trans hw.calls_le
  have htakeM : (requestsOf actions).take (callsOf h.closed).length = callsOf h.closed :=
    (List.prefix_iff_eq_take.mp ((List.prefix_append _ _).trans hclosed)).symm
  have htakeI : (requestsOf actions).take part.length = part :=
    (List.prefix_iff_eq_take.mp
      (hr.isPrefix.trans ((List.prefix_append _ _).trans hclosed))).symm
  have htakeK := (List.prefix_iff_eq_take.mp hclosed).symm
  refine ⟨db, st, last, part.length, (callsOf h.closed).length,
    (callsOf h.closed ++ taken).length, hrun, hrecover, hok, hr.isPrefix.length_le, ?_, ?_,
    fun hwhole => by rw [hr.whole hwhole], ?_, fun hmore => ?_, hr.last_le, ?_, ?_⟩
  · rw [List.length_append]
    exact Nat.le_add_right _ _
  · rw [htakeI, htakeM, htakeK, List.drop_left, htaken]
    exact hr.entries_eq
  · rw [htakeI]
    exact hr.part_le
  · rw [htakeK, htaken]
    refine hr.current_le fun hzero => ?_
    rw [htaken, hzero, List.take_zero, List.flatten_nil, List.append_nil] at hmore
    exact absurd hmore (lt_irrefl _)
  · intro xs ys hxy
    rw [hxy, requestsOf_append] at hsized htotal
    have hfirst : (updatesOf (requestsOf xs)).length < 2 ^ 56 := by
      rw [updatesOf_append, List.length_append] at htotal
      omega
    obtain ⟨db', h', idle', rest', hrun', hw', -⟩ := Db.create_written.run o xs
      (fun r hr => hsized r (List.mem_append_left _ hr)) hfirst
    rw [List.nil_append] at hw'
    have hlater : db'.run o ys = some db := by
      rw [hxy, Db.run_append, hrun', Option.bind_some] at hrun
      exact hrun
    refine ⟨db', hrun', ?_, ?_, hw'.recovered_later o hlater hsized htotal hrecover⟩
    · rw [← hw'.answers_length, hw'.answers, List.length_replicate]
    · rw [hw'.answered, hw'.contents_eq]
  · have hqueue : rest.length ≤ db.queue.length := by rw [hw.queue, List.length_map]
    obtain ⟨db', h', idle', hrounds, hw'⟩ := hw.rounds o hsized htotal db.queue.length hqueue
    refine ⟨db', hrounds, hw'.queue, ?_⟩
    rw [hw'.contents_eq, hw'.calls, List.append_nil, updatesOf_append, hw'.idle_updates,
      List.append_nil]

/-- A call, a call without a batch that starts a new log, and a call into that log. -/
def threeCalls : List Action :=
  [.arrive ⟨some [.put [1] [2], .put [3] [4]], true⟩, .lead false, .arrive ⟨none, false⟩,
    .lead false, .arrive ⟨some [.delete [1]], false⟩, .lead false]

theorem Db.crash_keeps_threeCalls :
    (∀ r ∈ requestsOf threeCalls, r.Sized) ∧
      (updatesOf (requestsOf threeCalls)).length < 2 ^ 56 ∧
      ∃ db st last i m k,
        Db.create.run ⟨⟨true, false, fun _ => false⟩, rfl⟩ threeCalls = some db ∧
        db.recover ⟨true, false, fun _ => false⟩ (fun _ => 30) = some (st, last) ∧
        st.status = none ∧ i ≤ m ∧ m ≤ k ∧
        db.tables.flatten ++ st.entries =
          entries 1 (updatesOf ((requestsOf threeCalls).take i)) ++
            entries ((updatesOf ((requestsOf threeCalls).take m)).length + 1)
              (updatesOf (((requestsOf threeCalls).take k).drop m)) := by
  have hsized : ∀ r ∈ requestsOf threeCalls, r.Sized := by
    simp [threeCalls, requestsOf, Request.Sized, GroupSized, Update.Sized]
  have htotal : (updatesOf (requestsOf threeCalls)).length < 2 ^ 56 := by
    simp [threeCalls, requestsOf, updatesOf]
  obtain ⟨db, st, last, i, m, k, hrun, hrecover, hok, him, hmk, hentries, -⟩ :=
    Db.crash_keeps_calls ⟨⟨true, false, fun _ => false⟩, rfl⟩ threeCalls (fun _ => 30) hsized
      htotal
  exact ⟨hsized, htotal, db, st, last, i, m, k, hrun, hrecover, hok, him, hmk, hentries⟩

end FreqAnalysis.LevelDb
