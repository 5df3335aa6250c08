import FreqAnalysis.FsHasher.Chunking

/-!
# Chunking a file through a window (fs-hasher.c)

`process_file` serves several chunking methods with one pass over the file. All of them
share a window of the file; each has its own offset, and the method with the lowest offset
is served next. When it finds no chunk in what is left of the window, the window moves to
its offset. `read` may return less than it was asked for. Every method ends with the chunks
it would find with the whole file in memory, and no assertion on the offsets fails.

A method is finished with its offset at `UINT64_MAX`; files are shorter than that.
-/

namespace FreqAnalysis.FsHasher
open Base

structure ChunkInfo where
  size : ℕ
  hash : List Byte
  cratio : Byte

structure Config where
  chnkMethod : ChnkMethod
  hashMethod : List Byte → List Byte
  compMethod : List Byte → Byte

def Config.info (c : Config) (chunk : List Byte) : ChunkInfo :=
  ⟨chunk.length, c.hashMethod chunk, c.compMethod chunk⟩

/-- A `dedup_method`, with the chunks that were added to its hash file. -/
structure Dedup where
  config : Config
  offset : Option ℕ
  added : List ChunkInfo

def Dedup.add (d : Dedup) (offset : ℕ) (info : ChunkInfo) : Dedup :=
  { d with offset := some offset, added := d.added ++ [info] }

structure Window where
  offset : ℕ
  buffer : List Byte

/-- What the run depends on besides the methods: the file, the size of the window, how
much each `read` returns, and the bytes in memory behind a window. -/
structure Source where
  file : List Byte
  windowSize : ℕ
  short : ℕ → ℕ → ℕ
  stale : Window → ℕ → Byte

/-! ### The window -/

/-- The loop of `window_advance_read`: how much was read, and whether the last `read`
returned data. -/
def readLoop (short : ℕ → ℕ) (avail windowSize : ℕ) : ℕ → ℕ → ℕ × Bool
  | 0, cur => (cur, true)
  | fuel + 1, cur =>
    if cur < windowSize then
      -- any count from 1 to what is asked for and there
      let ret := if avail ≤ cur then 0 else 1 + short cur % min (avail - cur) (windowSize - cur)
      if ret = 0 then (cur, false) else readLoop short avail windowSize fuel (cur + ret)
    else (cur, true)

def windowAdvance (src : Source) (newOffset : ℕ) : Window × Bool :=
  let (size, ret) := readLoop (src.short newOffset) (src.file.length - newOffset) src.windowSize
    (src.windowSize + 1) 0
  (⟨newOffset, (src.file.drop newOffset).take size⟩, ret)

theorem readLoop_eq (short : ℕ → ℕ) (avail windowSize fuel cur : ℕ)
    (hcur : cur ≤ min avail windowSize) (hfuel : windowSize < fuel + cur) :
    readLoop short avail windowSize fuel cur
      = (min avail windowSize, decide (windowSize ≤ avail)) := by
  induction fuel generalizing cur with
  | zero => omega
  | succ fuel ih =>
    rw [readLoop]
    by_cases hloop : cur < windowSize
    · rw [if_pos hloop]
      by_cases hend : avail ≤ cur
      · simp only [if_pos hend, if_true]
        rw [decide_eq_false (by omega)]
        congr 1
        omega
      · have hpos : 0 < min (avail - cur) (windowSize - cur) := by omega
        have hlt := Nat.mod_lt (short cur) hpos
        simp only [if_neg hend]
        rw [if_neg (by omega)]
        exact ih _ (by omega) (by omega)
    · rw [if_neg hloop, decide_eq_true (by omega)]
      congr 1
      omega

/-- The window is filled unless the file ends before. -/
theorem windowAdvance_eq (src : Source) (newOffset : ℕ) :
    windowAdvance src newOffset
      = (⟨newOffset, (src.file.drop newOffset).take src.windowSize⟩,
          decide (src.windowSize ≤ src.file.length - newOffset)) := by
  rw [windowAdvance, readLoop_eq _ _ _ _ _ (by omega) (by omega)]
  simp only
  congr 2
  rw [List.take_eq_take_iff, List.length_drop]
  omega

/-! ### The loop -/

def lower (i : ℕ) (d : Dedup) (best : Option (ℕ × Dedup × ℕ)) : Option (ℕ × Dedup × ℕ) :=
  match d.offset, best with
  | none, _ => best
  | some o, none => some (i, d, o)
  | some o, some (_, _, lowest) => if o < lowest then some (i, d, o) else best

def lowestFrom : List Dedup → ℕ → Option (ℕ × Dedup × ℕ) → Option (ℕ × Dedup × ℕ)
  | [], _, best => best
  | d :: ds, i, best => lowestFrom ds (i + 1) (lower i d best)

/-- Position, method and offset. -/
def getNextDedupMethod (ds : List Dedup) : Option (ℕ × Dedup × ℕ) := lowestFrom ds 0 none

structure Proc where
  window : Window
  eof : Bool
  dedups : List Dedup

inductive Turn where
  | done
  | failed
  | next (s : Proc)

/-- No chunk: the method is finished at the end of the file, else the window moves. -/
def noChunk (src : Source) (s : Proc) (i : ℕ) (d : Dedup) (offset : ℕ) : Proc :=
  if s.eof then { s with dedups := s.dedups.set i { d with offset := none } }
  else
    let (window, ret) := windowAdvance src offset
    { s with window := window, eof := !ret }

def turn (src : Source) (s : Proc) : Turn :=
  match getNextDedupMethod s.dedups with
  | none => .done
  | some (i, d, offset) =>
    if offset < s.window.offset then .failed
    else
      let bufferOffset := offset - s.window.offset
      if bufferOffset < s.window.buffer.length then
        let buffer := s.window.buffer.drop bufferOffset
        match d.config.chnkMethod.getNextChunk (src.stale s.window) buffer s.eof with
        | some (.chunk size) =>
          let d := d.add (offset + size) (d.config.info (buffer.take size))
          .next { s with dedups := s.dedups.set i d }
        | some .more => .next (noChunk src s i d offset)
        | some .error => .failed
        | none => .failed
      else if bufferOffset = s.window.buffer.length then .next (noChunk src s i d offset)
      else .failed

def loop (src : Source) : ℕ → Proc → Option Proc
  | 0, _ => none
  | fuel + 1, s =>
    match turn src s with
    | .done => some s
    | .failed => none
    | .next s' => loop src fuel s'

def prepared (src : Source) (configs : List Config) : Proc :=
  let (window, ret) := windowAdvance src 0
  ⟨window, !ret, configs.map fun c => ⟨c, some 0, []⟩⟩

def processFile (src : Source) (configs : List Config) (fuel : ℕ) : Option Proc :=
  loop src fuel (prepared src configs)

/-! ### The whole file in memory -/

/-- The chunks a method finds with the rest of the file in its buffer. -/
def wholeChunks (m : ChnkMethod) : ℕ → List Byte → List (List Byte)
  | 0, _ => []
  | fuel + 1, rest =>
    if rest = [] then []
    else
      match m.getNextChunk (fun _ => 0) rest true with
      | some (.chunk size) => rest.take size :: wholeChunks m fuel (rest.drop size)
      | _ => []

def chunksOf (m : ChnkMethod) (file : List Byte) : List (List Byte) :=
  wholeChunks m (file.length + 1) file

theorem wholeChunks_eq {m : ChnkMethod} {C : Cutter Byte} (h : m.CutsLike C) {fuel : ℕ}
    {rest : List Byte} (hfuel : rest.length < fuel) :
    wholeChunks m fuel rest = C.chunks m.tails rest := by
  induction fuel generalizing rest with
  | zero => omega
  | succ fuel ih =>
    rw [wholeChunks]
    by_cases hnil : rest = []
    · rw [if_pos hnil, hnil]
      rfl
    have hpos : 0 < rest.length := List.length_pos_of_ne_nil hnil
    rw [if_neg hnil, h]
    cases hcut : C.cut rest with
    | some n =>
      have hn := C.bounds hcut
      have hdrop : (rest.drop n).length < fuel := by
        rw [List.length_drop]
        omega
      simp only
      rw [C.chunks_of_cut m.tails hcut, ih hdrop]
    | none =>
      rw [C.chunks_of_none m.tails hcut]
      cases m.tails with
      | false => rfl
      | true =>
        have hnext : wholeChunks m fuel [] = [] := by
          cases fuel with
          | zero => rfl
          | succ fuel => rw [wholeChunks, if_pos rfl]
        simp [hnil, hnext]

theorem chunksOf_eq {m : ChnkMethod} {C : Cutter Byte} (h : m.CutsLike C) (file : List Byte) :
    chunksOf m file = C.chunks m.tails file :=
  wholeChunks_eq h (Nat.lt_succ_self _)

/-! ### The method that is served next -/

def Lowest (ds : List Dedup) : Option (ℕ × Dedup × ℕ) → Prop
  | none => ∀ d ∈ ds, d.offset = none
  | some (i, d, o) => ds[i]? = some d ∧ d.offset = some o ∧
      ∀ d' ∈ ds, ∀ o', d'.offset = some o' → o ≤ o'

theorem Lowest.concat {ds : List Dedup} {best : Option (ℕ × Dedup × ℕ)} (h : Lowest ds best)
    (d : Dedup) : Lowest (ds ++ [d]) (lower ds.length d best) := by
  have hlast : (ds ++ [d])[ds.length]? = some d := by simp
  unfold lower
  cases best with
  | none =>
    have hnone : ∀ d' ∈ ds, d'.offset = none := h
    cases hd : d.offset with
    | none =>
      exact List.forall_mem_append.mpr ⟨hnone, List.forall_mem_singleton.mpr hd⟩
    | some o =>
      refine ⟨hlast, hd, List.forall_mem_append.mpr ⟨?_, List.forall_mem_singleton.mpr ?_⟩⟩
      · intro d' hd' o' ho'
        rw [hnone d' hd'] at ho'
        cases ho'
      · intro o' ho'
        rw [hd] at ho'
        cases ho'
        exact Nat.le_refl o
  | some b =>
    obtain ⟨j, e, lowest⟩ := b
    obtain ⟨hget, he, hle⟩ : ds[j]? = some e ∧ e.offset = some lowest ∧
      ∀ d' ∈ ds, ∀ o', d'.offset = some o' → lowest ≤ o' := h
    have hget' : (ds ++ [d])[j]? = some e := by
      rw [List.getElem?_append_left (List.getElem?_eq_some_iff.mp hget).1, hget]
    cases hd : d.offset with
    | none =>
      refine ⟨hget', he, List.forall_mem_append.mpr ⟨hle, List.forall_mem_singleton.mpr ?_⟩⟩
      intro o' ho'
      rw [hd] at ho'
      cases ho'
    | some o =>
      simp only
      split
      next hlt =>
        refine ⟨hlast, hd, List.forall_mem_append.mpr ⟨?_, List.forall_mem_singleton.mpr ?_⟩⟩
        · intro d' hd' o' ho'
          have := hle d' hd' o' ho'
          omega
        · intro o' ho'
          rw [hd] at ho'
          cases ho'
          exact Nat.le_refl o
      next hge =>
        refine ⟨hget', he, List.forall_mem_append.mpr ⟨hle, List.forall_mem_singleton.mpr ?_⟩⟩
        intro o' ho'
        rw [hd] at ho'
        cases ho'
        omega

theorem lowestFrom_lowest (ds pre : List Dedup) (best : Option (ℕ × Dedup × ℕ))
    (h : Lowest pre best) : Lowest (pre ++ ds) (lowestFrom ds pre.length best) := by
  induction ds generalizing pre best with
  | nil => rwa [List.append_nil]
  | cons d ds ih =>
    have hnext := ih (pre ++ [d]) _ (h.concat d)
    rwa [List.append_assoc, List.length_append, List.length_singleton] at hnext

theorem getNextDedupMethod_lowest (ds : List Dedup) : Lowest ds (getNextDedupMethod ds) :=
  lowestFrom_lowest ds [] none fun _ hd => absurd hd List.not_mem_nil

/-! ### Every turn makes progress -/

section Turns

variable {src : Source} {cutter : Config → Cutter Byte}

def expected (src : Source) (cutter : Config → Cutter Byte) (c : Config) (o : ℕ) :
    List ChunkInfo :=
  ((cutter c).chunks c.chnkMethod.tails (src.file.drop o)).map c.info

/-- What a method has added and what is left to add make up all its chunks. -/
def OnTrack (src : Source) (cutter : Config → Cutter Byte) (w : Window) (d : Dedup) : Prop :=
  match d.offset with
  | some o => w.offset ≤ o ∧ o ≤ w.offset + w.buffer.length ∧
      d.added ++ expected src cutter d.config o = expected src cutter d.config 0
  | none => d.added = expected src cutter d.config 0

structure ProcInv (src : Source) (cutter : Config → Cutter Byte) (s : Proc) : Prop where
  buffer : s.window.buffer = (src.file.drop s.window.offset).take src.windowSize
  inside : s.window.offset ≤ src.file.length
  eof : s.eof = decide (src.file.length - s.window.offset < src.windowSize)
  onTrack : ∀ d ∈ s.dedups, OnTrack src cutter s.window d

def Dedup.cost (src : Source) (d : Dedup) : ℕ :=
  match d.offset with
  | some o => 2 * (src.file.length - o) + 2
  | none => 0

/-- Bytes and methods left, and whether the window may still have to move. -/
def Proc.cost (src : Source) (s : Proc) : ℕ :=
  (s.dedups.map (Dedup.cost src)).sum +
    (if s.eof || s.dedups.any (fun d => d.offset = some s.window.offset) then 0 else 1)

theorem ProcInv.end_le {s : Proc} (h : ProcInv src cutter s) :
    s.window.offset + s.window.buffer.length ≤ src.file.length := by
  have := h.inside
  rw [h.buffer, List.length_take, List.length_drop]
  omega

/-- What is left of the window at `o` is the start of the rest of the file, and all of it
at the end of the file. -/
theorem ProcInv.left {s : Proc} (h : ProcInv src cutter s) {o : ℕ} (hle : s.window.offset ≤ o) :
    (∃ more, src.file.drop o = s.window.buffer.drop (o - s.window.offset) ++ more) ∧
      (s.eof = true → src.file.drop o = s.window.buffer.drop (o - s.window.offset)) := by
  have hdrop : s.window.buffer.drop (o - s.window.offset)
      = (src.file.drop o).take (src.windowSize - (o - s.window.offset)) := by
    rw [h.buffer, List.drop_take, List.drop_drop]
    congr 2
    omega
  refine ⟨⟨_, by rw [hdrop]; exact (List.take_append_drop _ _).symm⟩, ?_⟩
  intro heof
  rw [h.eof, decide_eq_true_iff] at heof
  rw [hdrop, List.take_of_length_le]
  rw [List.length_drop]
  omega

theorem cost_set {s : Proc} {i : ℕ} {d d' : Dedup} (hget : s.dedups[i]? = some d)
    (hcost : d'.cost src + 2 ≤ d.cost src) :
    ({ s with dedups := s.dedups.set i d' } : Proc).cost src < s.cost src := by
  obtain ⟨hi, hd⟩ := List.getElem?_eq_some_iff.mp hget
  obtain ⟨l1, l2, hold, -, hnew⟩ := @List.exists_of_set _ _ d' _ hi
  rw [hd] at hold
  simp only [Proc.cost, hnew]
  rw [hold]
  simp only [List.map_append, List.map_cons, List.sum_append, List.sum_cons]
  have hflag : ∀ b : Bool, (if b = true then 0 else 1) ≤ 1 := by decide
  have h1 := hflag (s.eof || (l1 ++ d' :: l2).any fun d => d.offset = some s.window.offset)
  omega

theorem ProcInv.set {s : Proc} (h : ProcInv src cutter s) (i : ℕ) {d' : Dedup}
    (hd' : OnTrack src cutter s.window d') :
    ProcInv src cutter { s with dedups := s.dedups.set i d' } := by
  refine ⟨h.buffer, h.inside, h.eof, ?_⟩
  intro e he
  rcases List.mem_or_eq_of_mem_set he with he | rfl
  · exact h.onTrack e he
  · exact hd'

/-- A chunk is added: the method comes closer to the end. -/
theorem ProcInv.add {s : Proc} (h : ProcInv src cutter s) {i o n : ℕ} {d : Dedup}
    (hget : s.dedups[i]? = some d) (hd : d.offset = some o) (hn : 0 < n)
    (hend : o + n ≤ s.window.offset + s.window.buffer.length) {info : ChunkInfo}
    (hinfo : expected src cutter d.config o = info :: expected src cutter d.config (o + n)) :
    ProcInv src cutter { s with dedups := s.dedups.set i (d.add (o + n) info) } ∧
      ({ s with dedups := s.dedups.set i (d.add (o + n) info) } : Proc).cost src
        < s.cost src := by
  have hfile := h.end_le
  have htrack := h.onTrack d (List.mem_of_getElem? hget)
  simp only [OnTrack, hd] at htrack
  obtain ⟨hle, -, hall⟩ := htrack
  refine ⟨h.set i ⟨by omega, hend, ?_⟩, cost_set hget ?_⟩
  · show d.added ++ [info] ++ expected src cutter d.config (o + n) = _
    rw [List.append_assoc, List.singleton_append, ← hinfo]
    exact hall
  · simp only [Dedup.cost, Dedup.add, hd]
    omega

theorem ProcInv.finish {s : Proc} (h : ProcInv src cutter s) {i o : ℕ} {d : Dedup}
    (hget : s.dedups[i]? = some d) (hd : d.offset = some o)
    (hnone : expected src cutter d.config o = []) :
    ProcInv src cutter { s with dedups := s.dedups.set i { d with offset := none } } ∧
      ({ s with dedups := s.dedups.set i { d with offset := none } } : Proc).cost src
        < s.cost src := by
  have htrack := h.onTrack d (List.mem_of_getElem? hget)
  simp only [OnTrack, hd] at htrack
  obtain ⟨-, -, hall⟩ := htrack
  refine ⟨h.set i ?_, cost_set hget ?_⟩
  · rw [hnone, List.append_nil] at hall
    exact hall
  · simp only [Dedup.cost, hd]
    omega

/-- The window moves to the lowest offset: no method is left behind, and none is ahead of
the new window. -/
theorem ProcInv.advance {s : Proc} (h : ProcInv src cutter s) {i o : ℕ} {d : Dedup}
    (hlow : Lowest s.dedups (some (i, d, o))) (heof : s.eof = false)
    (hmoves : ∀ e ∈ s.dedups, e.offset ≠ some s.window.offset) :
    ProcInv src cutter (noChunk src s i d o) ∧ (noChunk src s i d o).cost src < s.cost src := by
  obtain ⟨hget, hd, hle⟩ := hlow
  have hmem := List.mem_of_getElem? hget
  have hend := h.end_le
  have htrack := h.onTrack d hmem
  simp only [OnTrack, hd] at htrack
  have hstate : noChunk src s i d o = { s with
      window := ⟨o, (src.file.drop o).take src.windowSize⟩
      eof := !decide (src.windowSize ≤ src.file.length - o) } := by
    simp only [noChunk, heof, windowAdvance_eq, Bool.false_eq_true, if_false]
  rw [hstate]
  have hsize : s.window.buffer.length ≤ src.windowSize := by
    rw [h.buffer]
    exact List.length_take_le _ _
  have hinside : o ≤ src.file.length := by omega
  refine ⟨⟨rfl, hinside, ?_, ?_⟩, ?_⟩
  · rw [← decide_not]
    simp
  · intro e he
    have hold := h.onTrack e he
    unfold OnTrack at hold ⊢
    cases ho : e.offset with
    | none => simpa only [ho] using hold
    | some o' =>
      simp only [ho] at hold ⊢
      refine ⟨hle e he o' ho, ?_, hold.2.2⟩
      rw [List.length_take, List.length_drop]
      omega
  · have hflag : s.dedups.any (fun e => e.offset = some s.window.offset) = false := by
      rw [List.any_eq_false]
      intro e he
      simpa using hmoves e he
    have hflag' : s.dedups.any (fun e => e.offset = some o) = true := by
      rw [List.any_eq_true]
      exact ⟨d, hmem, by simpa using hd⟩
    simp only [Proc.cost, hflag, hflag', heof]
    simp

/-- The method is a cutter whose chunks fit into the window. -/
structure Served (src : Source) (cutter : Config → Cutter Byte) (c : Config) : Prop where
  cuts : c.chnkMethod.CutsLike (cutter c)
  fits : (cutter c).max ≤ src.windowSize

/-- A window that starts at the offset of a method holds a chunk for it, or the end of the
file; so a window that has to move has no method at its start. -/
theorem ProcInv.moves {s : Proc} (h : ProcInv src cutter s) {i o : ℕ} {d : Dedup}
    (hlow : Lowest s.dedups (some (i, d, o))) (heof : s.eof = false)
    (hle : s.window.offset ≤ o) (hfits : (cutter d.config).max ≤ src.windowSize)
    (hcut : (cutter d.config).cut (s.window.buffer.drop (o - s.window.offset)) = none) :
    ∀ e ∈ s.dedups, e.offset ≠ some s.window.offset := by
  intro e he hstart
  have ho : o = s.window.offset := Nat.le_antisymm (hlow.2.2 e he _ hstart) hle
  rw [h.eof, decide_eq_false_iff_not] at heof
  rw [ho, Nat.sub_self, List.drop_zero] at hcut
  apply (cutter d.config).enough _ hcut
  rw [h.buffer, List.length_take, List.length_drop]
  omega

theorem map_config_set {s : Proc} {i : ℕ} {d d' : Dedup} (hget : s.dedups[i]? = some d)
    (hconfig : d'.config = d.config) :
    (s.dedups.set i d').map Dedup.config = s.dedups.map Dedup.config := by
  obtain ⟨hi, hd⟩ := List.getElem?_eq_some_iff.mp hget
  obtain ⟨l1, l2, hold, -, hnew⟩ := @List.exists_of_set _ _ d' _ hi
  rw [hd] at hold
  rw [hnew, hold, List.map_append, List.map_append, List.map_cons, List.map_cons, hconfig]

/-- A turn that goes on: the invariant holds, less is left to do, the methods stay. -/
def Advances (src : Source) (cutter : Config → Cutter Byte) (s s' : Proc) : Prop :=
  ProcInv src cutter s' ∧ s'.cost src < s.cost src ∧
    s'.dedups.map Dedup.config = s.dedups.map Dedup.config

theorem ProcInv.noChunk {s : Proc} (h : ProcInv src cutter s) {i o : ℕ} {d : Dedup}
    (hlow : Lowest s.dedups (some (i, d, o))) (hle : s.window.offset ≤ o)
    (hfits : (cutter d.config).max ≤ src.windowSize)
    (hcut : (cutter d.config).cut (s.window.buffer.drop (o - s.window.offset)) = none)
    (hnone : s.eof = true → expected src cutter d.config o = []) :
    Advances src cutter s (noChunk src s i d o) := by
  cases heof : s.eof with
  | false =>
    obtain ⟨hinv, hcost⟩ := h.advance hlow heof (h.moves hlow heof hle hfits hcut)
    refine ⟨hinv, hcost, ?_⟩
    simp only [FsHasher.noChunk, heof, Bool.false_eq_true, if_false]
  | true =>
    obtain ⟨hinv, hcost⟩ := h.finish hlow.1 hlow.2.1 (hnone heof)
    have hstate : FsHasher.noChunk src s i d o
        = { s with dedups := s.dedups.set i { d with offset := none } } := by
      simp only [FsHasher.noChunk, heof, if_true]
    rw [hstate]
    exact ⟨hinv, hcost, map_config_set hlow.1 rfl⟩

theorem ProcInv.turn {s : Proc} (h : ProcInv src cutter s)
    (hserved : ∀ d ∈ s.dedups, Served src cutter d.config) :
    (turn src s = .done ∧ ∀ d ∈ s.dedups, d.offset = none) ∨
      ∃ s', turn src s = .next s' ∧ Advances src cutter s s' := by
  have hlow := getNextDedupMethod_lowest s.dedups
  cases hnext : getNextDedupMethod s.dedups with
  | none =>
    rw [hnext] at hlow
    exact Or.inl ⟨by simp only [FsHasher.turn, hnext], hlow⟩
  | some b =>
    obtain ⟨i, d, o⟩ := b
    rw [hnext] at hlow
    obtain ⟨hget, hd, hmin⟩ := hlow
    have hmem := List.mem_of_getElem? hget
    have hser := hserved d hmem
    have htrack := h.onTrack d hmem
    simp only [OnTrack, hd] at htrack
    obtain ⟨hle, hend, -⟩ := htrack
    obtain ⟨⟨more, hfile⟩, hall⟩ := h.left hle
    have hnot : ¬ o < s.window.offset := by omega
    right
    simp only [FsHasher.turn, hnext, if_neg hnot]
    -- what is left of the window for this method
    generalize hpart : s.window.buffer.drop (o - s.window.offset) = part at hfile hall ⊢
    have hlen : part.length = s.window.buffer.length - (o - s.window.offset) := by
      rw [← hpart, List.length_drop]
    by_cases hdata : o - s.window.offset < s.window.buffer.length
    · rw [if_pos hdata, hser.cuts]
      cases hcut : (cutter d.config).cut part with
      | some n =>
        obtain ⟨hn, hnle⟩ := (cutter d.config).bounds hcut
        have hinfo : expected src cutter d.config o
            = d.config.info (part.take n) :: expected src cutter d.config (o + n) := by
          have hcutAll := (cutter d.config).cut_append hcut more
          rw [← hfile] at hcutAll
          rw [expected, (cutter d.config).chunks_of_cut _ hcutAll, List.map_cons, List.drop_drop,
            hfile, List.take_append_of_le_length hnle]
          rfl
        obtain ⟨hinv, hcost⟩ := h.add hget hd hn (by omega) hinfo
        exact ⟨_, rfl, hinv, hcost, map_config_set hget rfl⟩
      | none =>
        by_cases htail : (s.eof && d.config.chnkMethod.tails) = true
        · obtain ⟨heof, htails⟩ := Bool.and_eq_true_iff.mp htail
          have hrest := hall heof
          have hinfo : expected src cutter d.config o
              = d.config.info (part.take part.length)
                :: expected src cutter d.config (o + part.length) := by
            have hnil : src.file.drop (o + part.length) = [] := by
              rw [← List.drop_drop, hrest, List.drop_length]
            have hne : part ≠ [] := List.ne_nil_of_length_pos (by omega)
            rw [expected, expected, hnil, hrest, (cutter d.config).chunks_of_none _ hcut, htails,
              (cutter d.config).chunks_of_none _ (cutter d.config).cut_nil, List.take_length]
            simp [hne]
          obtain ⟨hinv, hcost⟩ := h.add hget hd (by omega) (by omega) hinfo
          simp only [htail, if_true]
          exact ⟨_, rfl, hinv, hcost, map_config_set hget rfl⟩
        · simp only [htail, Bool.false_eq_true, if_false]
          refine ⟨_, rfl, h.noChunk ⟨hget, hd, hmin⟩ hle hser.fits (hpart ▸ hcut) ?_⟩
          intro heof
          have htails : d.config.chnkMethod.tails = false := by simpa [heof] using htail
          rw [expected, hall heof, (cutter d.config).chunks_of_none _ hcut, htails]
          rfl
    · have hwhole : o - s.window.offset = s.window.buffer.length := by omega
      have hnil : part = [] := List.length_eq_zero_iff.mp (by omega)
      have hcut : (cutter d.config).cut part = none := by
        rw [hnil]
        exact (cutter d.config).cut_nil
      rw [if_neg hdata, if_pos hwhole]
      refine ⟨_, rfl, h.noChunk ⟨hget, hd, hmin⟩ hle hser.fits (hpart ▸ hcut) ?_⟩
      intro heof
      rw [expected, hall heof, hnil,
        (cutter d.config).chunks_of_none _ (cutter d.config).cut_nil]
      simp

theorem loop_spec {s : Proc} (h : ProcInv src cutter s)
    (hserved : ∀ c ∈ s.dedups.map Dedup.config, Served src cutter c) (fuel : ℕ)
    (hfuel : s.cost src < fuel) :
    ∃ s', loop src fuel s = some s' ∧ ProcInv src cutter s' ∧
      (∀ d ∈ s'.dedups, d.offset = none) ∧
      s'.dedups.map Dedup.config = s.dedups.map Dedup.config := by
  induction fuel generalizing s with
  | zero => omega
  | succ fuel ih =>
    have hturn := h.turn fun d hd => hserved d.config (List.mem_map.mpr ⟨d, hd, rfl⟩)
    rcases hturn with ⟨hdone, hnone⟩ | ⟨s1, hnext, hinv, hcost, hconfigs⟩
    · exact ⟨s, by simp only [loop, hdone], h, hnone, rfl⟩
    · obtain ⟨s', hloop, hinv', hnone, hsame⟩ := ih hinv (hconfigs ▸ hserved) (by omega)
      exact ⟨s', by simp only [loop, hnext]; exact hloop, hinv', hnone, hsame.trans hconfigs⟩

variable (src cutter) in
theorem prepared_inv (configs : List Config) :
    ProcInv src cutter (prepared src configs) ∧
      (prepared src configs).cost src ≤ configs.length * (2 * src.file.length + 2) + 1 := by
  have hstate : prepared src configs = ⟨⟨0, src.file.take src.windowSize⟩,
      !decide (src.windowSize ≤ src.file.length), configs.map fun c => ⟨c, some 0, []⟩⟩ := by
    simp only [prepared, windowAdvance_eq, List.drop_zero, Nat.sub_zero]
  rw [hstate]
  refine ⟨⟨rfl, Nat.zero_le _, ?_, ?_⟩, ?_⟩
  · rw [← decide_not]
    simp
  · intro d hd
    obtain ⟨c, -, rfl⟩ := List.mem_map.mp hd
    exact ⟨Nat.zero_le _, Nat.zero_le _, rfl⟩
  · have hsum : ((configs.map fun c => (⟨c, some 0, []⟩ : Dedup)).map (Dedup.cost src)).sum
        = configs.length * (2 * src.file.length + 2) := by
      rw [List.map_map, List.sum_eq_card_nsmul _ (2 * src.file.length + 2)]
      · simp
      · intro x hx
        obtain ⟨c, -, rfl⟩ := List.mem_map.mp hx
        rfl
    simp only [Proc.cost, hsum]
    split
    · omega
    · omega

/-- Every method ends with all its chunks. -/
theorem processFile_eq (configs : List Config) (hserved : ∀ c ∈ configs, Served src cutter c) :
    ∃ s, processFile src configs (configs.length * (2 * src.file.length + 2) + 2) = some s ∧
      s.dedups = configs.map fun c => ⟨c, none, expected src cutter c 0⟩ := by
  obtain ⟨hinv, hcost⟩ := prepared_inv src cutter configs
  have hconfigs : (prepared src configs).dedups.map Dedup.config = configs := by
    simp [prepared, Function.comp_def]
  obtain ⟨s, hloop, hinv', hnone, hsame⟩ := loop_spec hinv (fun c hc => hserved c (hconfigs ▸ hc))
    (configs.length * (2 * src.file.length + 2) + 2) (by omega)
  refine ⟨s, hloop, ?_⟩
  rw [hconfigs] at hsame
  have hded : ∀ d ∈ s.dedups, d = ⟨d.config, none, expected src cutter d.config 0⟩ := by
    intro d hd
    have htrack := hinv'.onTrack d hd
    have hoffset := hnone d hd
    simp only [OnTrack, hoffset] at htrack
    rw [← htrack, ← hoffset]
  conv_lhs => rw [← List.map_id s.dedups]
  rw [← hsame, List.map_map]
  exact List.map_congr_left hded

end Turns

/-- A window as large as the largest chunk serves every valid method. -/
theorem exists_served (src : Source) (configs : List Config)
    (hvalid : ∀ c ∈ configs, c.chnkMethod.Valid ∧ c.chnkMethod.maxSize ≤ src.windowSize) :
    ∃ cutter : Config → Cutter Byte, ∀ c ∈ configs,
      Served src cutter c ∧
        expected src cutter c 0 = (chunksOf c.chnkMethod src.file).map c.info := by
  have hcutter : ∀ c ∈ configs, ∃ C : Cutter Byte,
      c.chnkMethod.CutsLike C ∧ C.max ≤ src.windowSize := by
    intro c hc
    obtain ⟨C, hcuts, hmax, -⟩ := c.chnkMethod.exists_cutter (hvalid c hc).1
    exact ⟨C, hcuts, hmax ▸ (hvalid c hc).2⟩
  choose! cutter hcuts using hcutter
  refine ⟨cutter, fun c hc => ⟨⟨(hcuts c hc).1, (hcuts c hc).2⟩, ?_⟩⟩
  rw [chunksOf_eq (hcuts c hc).1, expected, List.drop_zero]

/-- `process_file` ends after boundedly many turns, without a failed assertion, and every
method has added exactly the chunks that it finds in the file as a whole: the size of the
window, short reads, the memory behind the window and the other methods do not matter. -/
theorem process_file_chunks (src : Source) (configs : List Config)
    (hvalid : ∀ c ∈ configs, c.chnkMethod.Valid ∧ c.chnkMethod.maxSize ≤ src.windowSize) :
    ∃ s, processFile src configs (configs.length * (2 * src.file.length + 2) + 2) = some s ∧
      s.dedups = configs.map fun c =>
        ⟨c, none, (chunksOf c.chnkMethod src.file).map c.info⟩ := by
  obtain ⟨cutter, hcutter⟩ := exists_served src configs hvalid
  obtain ⟨s, hrun, hdedups⟩ := processFile_eq configs fun c hc => (hcutter c hc).1
  refine ⟨s, hrun, hdedups.trans (List.map_congr_left ?_)⟩
  intro c hc
  rw [(hcutter c hc).2]

/-- A window of eight bytes, read three bytes at a time. -/
def smallSource : Source where
  file := [9, 9, 9, 1, 2, 9, 9, 9, 9, 9, 9, 9, 1, 2, 7]
  windowSize := 8
  short := fun _ _ => 2
  stale := fun _ _ => 255

def smallConfigs : List Config :=
  [⟨.fixed ⟨4, true⟩, id, fun _ => 10⟩, ⟨.var VarChnkParams.smallParams, id, fun _ => 10⟩]

theorem process_file_chunks_small :
    ∃ s, processFile smallSource smallConfigs 66 = some s ∧
      s.dedups.map (fun d => d.added.map ChunkInfo.size) = [[4, 4, 4, 3], [5, 6, 3, 1]] := by
  have hvalid : ∀ c ∈ smallConfigs,
      c.chnkMethod.Valid ∧ c.chnkMethod.maxSize ≤ smallSource.windowSize := by
    intro c hc
    rcases List.mem_pair.mp hc with rfl | rfl
    · exact ⟨show 0 < 4 by decide, by decide⟩
    · exact ⟨VarChnkParams.smallParams_valid, by decide⟩
  obtain ⟨s, hrun, hdedups⟩ := process_file_chunks smallSource smallConfigs hvalid
  refine ⟨s, hrun, ?_⟩
  rw [hdedups]
  decide +kernel

end FreqAnalysis.FsHasher
