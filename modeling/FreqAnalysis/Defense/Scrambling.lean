import FreqAnalysis.Defense.Segment
import FreqAnalysis.Locality.Count

/-!
# Scrambling (scrambling.cc)

`process_seg` moves the chunks of a segment from `sq` to one of the two ends of a
deque and prints the deque. The results of `rand()` are an arbitrary sequence;
the program counts how many it has taken.
-/

namespace FreqAnalysis.Defense
open Base Locality

/-! ### process_seg -/

section Scramble

variable (rand : ℕ → ℕ)

/-- `( rand() * rand() ) % 2 == 0`, with the results number `n` and `n + 1`. The
product is an `int`. -/
def toFront (n : ℕ) : Bool := (BitVec.ofNat 32 (rand n * rand (n + 1))).toInt.tmod 2 = 0

/-- `sq` moved to the deque. -/
def scramble : ℕ → List Node → List Node → List Node
  | _, deq, [] => deq
  | n, deq, tmp :: sq =>
    if toFront rand n then scramble (n + 2) (tmp :: deq) sq else scramble (n + 2) (deq ++ [tmp]) sq

theorem scramble_perm (n : ℕ) (deq sq : List Node) :
    (scramble rand n deq sq).Perm (deq ++ sq) := by
  induction sq generalizing n deq with
  | nil =>
    rw [List.append_nil]
    exact List.Perm.refl _
  | cons tmp sq ih =>
    unfold scramble
    split_ifs
    · exact (ih _ _).trans List.perm_middle.symm
    · have h := ih (n + 2) (deq ++ [tmp])
      rw [List.append_assoc, List.singleton_append] at h
      exact h

/-- The number of results of `rand()` taken, and the text printed. -/
structure ScramblingEnv where
  drawn : ℕ
  out : List Char

def scramblingSeg (env : ScramblingEnv) (sq : List Node) : ScramblingEnv :=
  ⟨env.drawn + 2 * sq.length, env.out ++ printNodes (scramble rand env.drawn [] sq)⟩

def scramblingProgram : Program ScramblingEnv where
  processSeg env sq := some (scramblingSeg rand env sq)
  clear env := env
  accept env _ := env

/-- The text that `scrambling` prints for a trace file. -/
def scrambling (text : List Char) : Option (List Char) :=
  (main (scramblingProgram rand) ⟨0, titleText⟩ text).map ScramblingEnv.out

theorem segStep_scrambling (env : ScramblingEnv) (seg : List Node) :
    segStep (scramblingProgram rand) env seg = some (scramblingSeg rand env seg) := by
  have hfold : seg.foldl (scramblingProgram rand).accept env = env := by
    induction seg with
    | nil => rfl
    | cons e seg ih => exact ih
  show some (scramblingSeg rand (seg.foldl (scramblingProgram rand).accept env) seg) = _
  rw [hfold]

theorem foldlM_scrambling (segs : List (List Node)) (env : ScramblingEnv) :
    ∃ env' blocks, segs.foldlM (segStep (scramblingProgram rand)) env = some env' ∧
      List.Forall₂ List.Perm blocks segs ∧ env'.out = env.out ++ printNodes blocks.flatten := by
  apply foldlM_blocks
    (R := fun (env : ScramblingEnv) block env' => env'.out = env.out ++ printNodes block)
  · intro env
    exact (List.append_nil env.out).symm
  · intro env a env1 b env2 h1 h2
    rw [h2, h1, printNodes_append, List.append_assoc]
  · intro seg _ env
    exact ⟨_, _, segStep_scrambling rand env seg, scramble_perm rand _ [] seg, rfl⟩

theorem scrambling_run {text : List Char} {cs : List Chunk} (hread : readChunks text = some cs) :
    ∃ blocks, scrambling rand text = some (titleText ++ printNodes blocks.flatten) ∧
      List.Forall₂ List.Perm blocks (segments (cs.map Node.ofChunk)) := by
  obtain ⟨env', blocks, hrun, hperm, hout⟩ :=
    foldlM_scrambling rand (segments (cs.map Node.ofChunk)) ⟨0, titleText⟩
  have hmain : scrambling rand text = some env'.out := by
    rw [scrambling, main, hread, Option.bind_some, run_eq _ _ rfl, hrun, Option.map_some]
  rw [hout] at hmain
  exact ⟨blocks, hmain, hperm⟩

end Scramble

/-- The printed records are those of the trace, rearranged inside segments only,
so every chunk keeps its frequency. -/
theorem scrambling_permutes (rand : ℕ → ℕ) (text : List Char) (cs : List Chunk)
    (hread : readChunks text = some cs) (hsize : ∀ c ∈ cs, 0 ≤ c.size ∧ c.size < 2 ^ 31) :
    ∃ out segs blocks, scrambling rand text = some out ∧
      segs.flatten.map Node.chunk = cs ∧
      (∀ seg ∈ segs, seg ≠ [] ∧ Bounded seg) ∧
      List.Forall₂ List.Perm blocks segs ∧
      out = titleText ++ printNodes blocks.flatten ∧
      readChunks out = some (blocks.flatten.map Node.chunk) ∧
      (countRuns [readFps out]).db = (countRuns [readFps text]).db := by
  obtain ⟨blocks, hmain, hperm⟩ := scrambling_run rand hread
  -- a segment before an oversized first chunk is empty, and so is its block
  rw [← List.flatten_filter_ne_nil] at hmain
  have hflat : ((segments (cs.map Node.ofChunk)).filter (· ≠ [])).flatten
      = cs.map Node.ofChunk := by
    rw [List.flatten_filter_ne_nil, segments_flatten]
  have hblocks : (blocks.filter (· ≠ [])).flatten.Perm (cs.map Node.ofChunk) := by
    rw [← hflat]
    exact List.Perm.flatten_congr (forall₂_perm_filter hperm)
  have htrace := ofChunk_size_lt hsize
  have hprinted : ∀ e ∈ (blocks.filter (· ≠ [])).flatten, e.size < 2 ^ 31 :=
    fun e he => htrace e (hblocks.mem_iff.mp he)
  refine ⟨_, _, _, hmain, by rw [hflat, map_chunk_ofChunk hsize], ?_, forall₂_perm_filter hperm,
    rfl, readChunks_printNodes hprinted, ?_⟩
  · intro seg hseg
    obtain ⟨hmem, hne⟩ := List.mem_filter.mp hseg
    exact ⟨by simpa using hne, segments_bounded htrace seg hmem⟩
  · rw [readFps_printNodes hprinted, readFps_of_readChunks text cs hread]
    apply countRuns_db_perm
    have h := hblocks.map Node.key
    rw [List.map_map] at h
    exact h

theorem scrambling_permutes_two :
    (segments (twoSegments.map fun r => ⟨r.1, r.2⟩)).length = 2 ∧
      ∃ out, scrambling (fun _ => 1) (printTrace twoSegments) = some out ∧
        (countRuns [readFps out]).db = (countRuns [readFps (printTrace twoSegments)]).db := by
  obtain ⟨out, -, -, hrun, -, -, -, -, -, hdb⟩ := scrambling_permutes (fun _ => 1) _ _
    (readChunks_printTrace twoSegments (by decide)) (by decide)
  exact ⟨by rw [segments_twoSegments]; rfl, out, hrun, hdb⟩

end FreqAnalysis.Defense
