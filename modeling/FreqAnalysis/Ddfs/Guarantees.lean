import FreqAnalysis.Ddfs.SystemInv

/-!
# What the prototype guarantees

No run faults, no fingerprint is inserted twice, and the index always points at
the container that holds the fingerprint. A chunk can still be lost: the cache
takes two fingerprints with the same C string (and the same `str_hash`) for one,
and answers "duplicate" for a fingerprint that nothing ever stored.
-/

namespace FreqAnalysis.Ddfs
open Base

section Guarantees

variable {P : Params}

/-! ### Runs terminate normally -/

theorem readChunks_cons {s s1 s2 : State P.size} {c : Chunk} {trace : List Chunk}
    (hread : readChunk P s c = .ok s1) (hrest : trace.foldlM (readChunk P) s1 = .ok s2) :
    (c :: trace).foldlM (readChunk P) s = .ok s2 := by
  simp only [List.foldlM_cons, hread, bind, Except.bind]
  exact hrest

theorem Reachable.readChunks {s : State P.size} (h : Reachable P (anyChunk P) .running s)
    (trace : List Chunk) :
    ∃ s', trace.foldlM (readChunk P) s = .ok s' ∧ Reachable P (anyChunk P) .running s' := by
  induction trace generalizing s with
  | nil => exact ⟨s, rfl, h⟩
  | cons c trace ih =>
    obtain ⟨s1, hread, -⟩ := h.runInv.readChunk c
    obtain ⟨s2, hrest, hreach⟩ := ih (h.step (.chunk c trivial hread))
    exact ⟨s2, readChunks_cons hread hrest, hreach⟩

theorem Reachable.ddfs {s : State P.size} (h : Reachable P (anyChunk P) .idle s)
    (trace : List Chunk) :
    ∃ s', ddfs P s trace = .ok s' ∧ Reachable P (anyChunk P) .idle s' := by
  obtain ⟨s1, hstart, -⟩ := h.runInv.sysIni
  obtain ⟨s2, hread, hreach⟩ := (h.step (.start hstart)).readChunks trace
  obtain ⟨s3, hend, -⟩ := hreach.runInv.finishRun
  refine ⟨s3, ?_, hreach.step (.finish hend)⟩
  simp only [Ddfs.ddfs, hstart, hread, hend, bind, Except.bind]

/-! ### Chunks are stored at most once -/

/-- Over all runs, no fingerprint reaches `CMR.insert` twice and no `FPI.insert`
of `punique` finds its key present; the index holds the inserted fingerprints,
one for every `update_access`. -/
theorem stored_at_most_once (ph : Phase) (s : State P.size)
    (h : Reachable P (anyChunk P) ph s) :
    s.volume.inserted.Nodup ∧ (∀ r ∈ s.putResults, r ≠ -1) ∧
    (∀ x, x ∈ s.index.keys ↔ x ∈ s.volume.inserted) ∧
    s.accesses ph = s.index.entries.length := by
  have hr := h.runInv
  refine ⟨hr.inv.once, ?_, hr.inv.indexed, hr.counted⟩
  intro r hmem
  rw [hr.inv.puts r hmem]
  decide

def smallParams : Params := ⟨⟨64, 7, by decide⟩, murmurhash2, fun _ _ _ => 0⟩

theorem stored_at_most_once_run : ∃ s,
    ddfs smallParams (State.initial smallParams.size)
      [⟨⟨[170, 170, 170, 170, 170, 170], rfl⟩, 8192⟩, ⟨⟨[187, 187, 187, 187, 187, 187], rfl⟩, 4096⟩,
        ⟨⟨[170, 170, 170, 170, 170, 170], rfl⟩, 8192⟩] = .ok s ∧
    Reachable smallParams (anyChunk smallParams) .idle s ∧
    s.volume.inserted.Nodup ∧ (∀ r ∈ s.putResults, r ≠ -1) ∧
    (∀ x, x ∈ s.index.keys ↔ x ∈ s.volume.inserted) ∧
    s.accesses .idle = s.index.entries.length := by
  obtain ⟨s, hrun, hreach⟩ := Reachable.initial.ddfs
    [⟨⟨[170, 170, 170, 170, 170, 170], rfl⟩, 8192⟩, ⟨⟨[187, 187, 187, 187, 187, 187], rfl⟩, 4096⟩,
      ⟨⟨[170, 170, 170, 170, 170, 170], rfl⟩, 8192⟩]
  exact ⟨s, hrun, hreach, stored_at_most_once .idle s hreach⟩

/-! ### Index and containers agree -/

/-- Where an indexed fingerprint is: in the file of an older container, or in
the container in memory, which has no file yet. -/
def Located (P : Params) (s : State P.size) (x : Fp) (id : ℤ) : Prop :=
  (0 ≤ id ∧ id < s.cmr.nowId ∧ ∃ l, (id, l) ∈ s.volume.written ∧ x ∈ l ∧
    s.volume.files (decimal id) = some (ContainerManager.containerText (P.stale id) l)) ∨
  (id = s.cmr.nowId ∧ s.volume.files (decimal s.cmr.nowId) = none ∧ x ∈ s.cmr.tmp)

theorem index_points_at_container (ph : Phase) (s : State P.size)
    (h : Reachable P (anyChunk P) ph s) :
    (∀ x, fpFind s.index x ≠ -1 → Located P s x (fpFind s.index x) ∧
      (s.cmr.loadtonode s.volume (fpFind s.index x)).1 = true) ∧
    (ph = .running → ∀ c, readChunk P s c ≠ .error .loadFailed) ∧
    (∀ ph' s', Step P (anyChunk P) ph s ph' s' → Keeps s.volume s'.volume) := by
  have hr := h.runInv
  have hcont := hr.inv.containers
  refine ⟨?_, ?_, ?_⟩
  · intro x hx
    cases hget : s.index.get x with
    | none => simp [fpFind, hget] at hx
    | some id =>
      have hid : fpFind s.index x = id := by simp [fpFind, hget]
      obtain ⟨conti, hload, -⟩ := hcont.loadtonode x id hget
      rw [hid, hload]
      refine ⟨?_, rfl⟩
      rcases hcont.located x id hget with ⟨l, hl, hxl⟩ | ⟨hnow, htmp⟩
      · obtain ⟨h0, hlt, hfile⟩ := hcont.written id l hl
        exact Or.inl ⟨h0, hlt, l, hl, hxl, hfile⟩
      · exact Or.inr ⟨hnow, hcont.fresh _ le_rfl, htmp⟩
  · intro hph c
    subst hph
    obtain ⟨s', hread, -⟩ := hr.readChunk c
    rw [hread]
    intro hfault
    cases hfault
  · intro ph' s' hstep
    exact (hr.step hstep).2.1

def started (P : Params) : State P.size :=
  { State.initial P.size with
    volume := Volume.write ⟨fun _ => none, [], []⟩ mainfest (decimal 0 ++ ['\n']) }

theorem sysIni_initial (P : Params) : sysIni P (State.initial P.size) = .ok (started P) := rfl

theorem reachable_started (P : Params) : Reachable P (anyChunk P) .running (started P) :=
  Reachable.initial.step (.start (sysIni_initial P))

/-- While the run goes on the chunk is in the container in memory, after it in a file. -/
theorem index_points_at_container_chunk : ∃ s s',
    readChunk smallParams (started smallParams) ⟨⟨[170, 170, 170, 170, 170, 170], rfl⟩, 8192⟩
      = .ok s ∧ finishRun smallParams s = .ok s' ∧
    fpFind s.index ⟨[170, 170, 170, 170, 170, 170], rfl⟩ = 0 ∧
    Located smallParams s ⟨[170, 170, 170, 170, 170, 170], rfl⟩ 0 ∧
    fpFind s'.index ⟨[170, 170, 170, 170, 170, 170], rfl⟩ = 0 ∧ s'.cmr.nowId = 1 ∧
    Located smallParams s' ⟨[170, 170, 170, 170, 170, 170], rfl⟩ 0 := by
  obtain ⟨s, hread, -⟩ := (reachable_started smallParams).runInv.readChunk
    ⟨⟨[170, 170, 170, 170, 170, 170], rfl⟩, 8192⟩
  have hreach := (reachable_started smallParams).step (.chunk _ trivial hread)
  obtain ⟨s', hend, -⟩ := hreach.runInv.finishRun
  have hids : ((readChunk smallParams (started smallParams)
      ⟨⟨[170, 170, 170, 170, 170, 170], rfl⟩, 8192⟩).bind fun s =>
        (finishRun smallParams s).map fun s' =>
          (fpFind s.index ⟨[170, 170, 170, 170, 170, 170], rfl⟩,
            fpFind s'.index ⟨[170, 170, 170, 170, 170, 170], rfl⟩, s'.cmr.nowId))
      = .ok (0, 0, 1) := by
    decide +kernel
  rw [hread, Except.bind, hend] at hids
  obtain ⟨hzero, hzero', hnow⟩ : _ ∧ _ ∧ _ := by simpa using Except.ok.inj hids
  have hloc := ((index_points_at_container .running s hreach).1
    ⟨[170, 170, 170, 170, 170, 170], rfl⟩ (by rw [hzero]; decide)).1
  have hloc' := ((index_points_at_container .idle s' (hreach.step (.finish hend))).1
    ⟨[170, 170, 170, 170, 170, 170], rfl⟩ (by rw [hzero']; decide)).1
  rw [hzero] at hloc
  rw [hzero'] at hloc'
  exact ⟨s, s', hread, hend, hzero, hloc, hzero', hnow, hloc'⟩

/-! ### Chunks that are lost -/

def StoredIn (s : State P.size) (x : Fp) : Prop :=
  fpFind s.index x ≠ -1 ∧ x ∈ s.volume.inserted

/-- No indexed fingerprint but its own equals that of the chunk for `strncmp`. -/
def Unaliased (s : State P.size) (c : Chunk) : Prop :=
  ∀ x ∈ s.index.keys, sameCStr x c.hash = true → x = c.hash

/-- The chunks that a sequence of runs has processed when it is in state `s`,
every one of them in a state that satisfies `ok`. -/
inductive Processed (P : Params) (ok : State P.size → Chunk → Prop) :
    Phase → State P.size → List Chunk → Prop
  | initial : Processed P ok .idle (State.initial P.size) []
  | start {s s' : State P.size} {seen : List Chunk} :
      Processed P ok .idle s seen → sysIni P s = .ok s' → Processed P ok .running s' seen
  | chunk {s s' : State P.size} {seen : List Chunk} (c : Chunk) :
      Processed P ok .running s seen → ok s c → readChunk P s c = .ok s' →
      Processed P ok .running s' (seen ++ [c])
  | finish {s s' : State P.size} {seen : List Chunk} :
      Processed P ok .running s seen → finishRun P s = .ok s' → Processed P ok .idle s' seen

theorem Processed.reachable {ok : State P.size → Chunk → Prop} {ph : Phase} {s : State P.size}
    {seen : List Chunk} (h : Processed P ok ph s seen) : Reachable P ok ph s := by
  induction h with
  | initial => exact .initial
  | start _ heq ih => exact ih.step (.start heq)
  | chunk c _ hok heq ih => exact ih.step (.chunk c hok heq)
  | finish _ heq ih => exact ih.step (.finish heq)

theorem RunInv.storedIn {ph : Phase} {s : State P.size} (h : RunInv P ph s) {x : Fp}
    (hx : x ∈ s.volume.inserted) : StoredIn s x := by
  refine ⟨?_, hx⟩
  obtain ⟨id, hget⟩ := (s.index.mem_keys_iff x).mp ((h.inv.indexed x).mpr hx)
  have hid := h.inv.containers.nonneg x id hget
  simp only [fpFind, hget, Option.getD_some]
  omega

theorem RunInv.readChunk_inserts {s s' : State P.size} (h : RunInv P .running s) (c : Chunk)
    (hc : Unaliased s c) (hread : Ddfs.readChunk P s c = .ok s') :
    c.hash ∈ s'.volume.inserted := by
  obtain ⟨t, ht, -, hgrow, hor⟩ := h.readChunk c
  obtain rfl : t = s' := Except.ok.inj (ht.symm.trans hread)
  rcases hor with hmem | ⟨x, hx, heq⟩
  · exact hmem
  · have hxc := hc x ((h.inv.indexed x).mpr hx) ((sameCStr_iff x c.hash).mpr heq)
    exact hgrow.inserted _ (hxc ▸ hx)

theorem Processed.inserted {ph : Phase} {s : State P.size} {seen : List Chunk}
    (h : Processed P Unaliased ph s seen) : ∀ c ∈ seen, c.hash ∈ s.volume.inserted := by
  induction h with
  | initial => exact fun c hc => absurd hc List.not_mem_nil
  | start hprev heq ih =>
    intro c hc
    have hstep : Step P Unaliased .idle _ .running _ := .start heq
    exact (hprev.reachable.runInv.step hstep).2.2 _ (ih c hc)
  | chunk d hprev hok heq ih =>
    intro c hc
    rcases List.mem_append.mp hc with hold | hnew
    · exact (hprev.reachable.runInv.step (.chunk d hok heq)).2.2 _ (ih c hold)
    · rw [List.mem_singleton.mp hnew]
      exact hprev.reachable.runInv.readChunk_inserts d hok heq
  | finish hprev heq ih =>
    intro c hc
    have hstep : Step P Unaliased .running _ .idle _ := .finish heq
    exact (hprev.reachable.runInv.step hstep).2.2 _ (ih c hc)

/-- In a sequence of runs that never processes a chunk while a different
fingerprint with the same C string is in the index, every chunk processed so
far is stored, and the next one is processed without a fault. -/
theorem chunks_stored (ph : Phase) (s : State P.size) (seen : List Chunk)
    (h : Processed P Unaliased ph s seen) :
    (∀ c ∈ seen, StoredIn s c.hash) ∧ (ph = .running → ∀ c, ∃ s', readChunk P s c = .ok s') := by
  have hr := h.reachable.runInv
  refine ⟨fun c hc => hr.storedIn (h.inserted c hc), ?_⟩
  intro hph c
  subst hph
  obtain ⟨s', hread, -⟩ := hr.readChunk c
  exact ⟨s', hread⟩

theorem chunks_stored_two : ∃ s,
    Processed smallParams Unaliased .running s
      [⟨⟨[0, 1, 0, 0, 0, 0], rfl⟩, 8192⟩, ⟨.filled 7, 4096⟩] ∧
    StoredIn s ⟨[0, 1, 0, 0, 0, 0], rfl⟩ ∧ StoredIn s (.filled 7) := by
  have h0 : Processed smallParams Unaliased .running (started smallParams) [] :=
    Processed.initial.start (sysIni_initial smallParams)
  obtain ⟨s1, hread1, -⟩ := h0.reachable.runInv.readChunk ⟨⟨[0, 1, 0, 0, 0, 0], rfl⟩, 8192⟩
  have h1 := h0.chunk _ (fun _ hx => absurd hx List.not_mem_nil) hread1
  have hkeys : (readChunk smallParams (started smallParams)
      ⟨⟨[0, 1, 0, 0, 0, 0], rfl⟩, 8192⟩).map (fun s => s.index.keys)
      = .ok [⟨[0, 1, 0, 0, 0, 0], rfl⟩] := by
    decide +kernel
  rw [hread1] at hkeys
  have hun : Unaliased s1 ⟨.filled 7, 4096⟩ := by
    unfold Unaliased
    rw [show s1.index.keys = [⟨[0, 1, 0, 0, 0, 0], rfl⟩] from Except.ok.inj hkeys]
    decide
  obtain ⟨s2, hread2, -⟩ := h1.reachable.runInv.readChunk ⟨.filled 7, 4096⟩
  have h2 := h1.chunk _ hun hread2
  have hall := (chunks_stored .running s2 _ h2).1
  exact ⟨s2, h2, hall ⟨⟨[0, 1, 0, 0, 0, 0], rfl⟩, 8192⟩ (by simp),
    hall ⟨.filled 7, 4096⟩ (by simp)⟩

end Guarantees

def aliasA : Fp := ⟨[0, 1, 0, 0, 0, 0], rfl⟩

/-- The fingerprint 00:00:05:00:00:00: the same C string and `str_hash`. -/
def aliasB : Fp := ⟨[0, 0, 5, 0, 0, 0], rfl⟩

/-- A first run that processes the trace without a fault and has not stored
`x` afterwards, whatever the Bloom filter is. -/
def Loses (trace : List Chunk) (x : Fp) : Prop :=
  ∀ P : Params, ∃ s, Reachable P (anyChunk P) .running s ∧
    trace.foldlM (readChunk P) (started P) = .ok s ∧
    fpFind s.index x = -1 ∧ x ∉ s.volume.inserted

theorem loadCache_singleton {P : Params} {s : State P.size} {k : Fp} {r : Bool} {lpc : LruCache}
    (hput : s.lpc.putdata k = some (r, lpc)) :
    loadCache P s [k] = .ok { s with lpc := lpc, loadingAccess := s.loadingAccess + 1 } := by
  simp only [loadCache, List.foldlM_cons, List.foldlM_nil, hput, orCrash, bind, Except.bind]
  rfl

/-- The second chunk loads the container into the cache; the third one hits. -/
theorem loses_aliased_chunk : Loses [⟨aliasA, 8192⟩, ⟨aliasA, 8192⟩, ⟨aliasB, 8192⟩] aliasB := by
  intro P
  have hmiss : (LruCache.new lruSize).find aliasA = some (false, LruCache.new lruSize) := rfl
  obtain ⟨lpc, hput, lpc', hfalse⟩ : ∃ lpc,
      (LruCache.new lruSize).putdata aliasA = some (true, lpc) ∧
      ∃ lpc', lpc.find aliasB = some (true, lpc') := ⟨_, rfl, _, rfl⟩
  obtain ⟨n, h1⟩ := readChunk_unique (P := P) (s := started P) (c := ⟨aliasA, 8192⟩) hmiss rfl
  have hr1 := (reachable_started P).step (.chunk _ trivial h1)
  have h2 := (readChunk_dup hr1.runInv.inv (c := ⟨aliasA, 8192⟩) 0 [aliasA] hmiss rfl
    rfl).trans (loadCache_singleton hput)
  have hr2 := hr1.step (.chunk _ trivial h2)
  have h3 : ∀ s : State P.size, s.lpc = lpc →
      readChunk P s ⟨aliasB, 8192⟩ = .ok { s with lpc := lpc' } :=
    fun s hs => readChunk_hit (hs ▸ hfalse)
  refine ⟨_, hr2.step (.chunk _ trivial (h3 _ rfl)),
    readChunks_cons h1 (readChunks_cons h2 (readChunks_cons (h3 _ rfl) rfl)), rfl, ?_⟩
  show aliasB ∉ [aliasA]
  decide

end FreqAnalysis.Ddfs
