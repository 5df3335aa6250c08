import FreqAnalysis.Base.Cut
import FreqAnalysis.TraceFormat

/-!
# Segments of a trace (k_minhash.cc, scrambling.cc, combined.cc)

The three defenses share `read_hashes` and `main`: chunks wait in the queue `sq`
until one of them starts a new segment; `process_seg` then prints the segment,
and `main` calls it once more for the last one. What the programs do with a
chunk besides, and what `process_seg` does, is a parameter here. A program does
nothing of its own between two calls of `process_seg` that another segment could
see, so it is a fold over the segments.
-/

namespace FreqAnalysis.Defense
open Base

structure Node where
  key : Fp
  size : ℕ
  deriving DecidableEq

/-- `uint64_t size = atoi(item)`. -/
def Node.ofChunk (c : Chunk) : Node := ⟨c.hash, (c.size % 2 ^ 64).toNat⟩

/-! ### Where a segment ends -/

def segMin : ℕ := 2 <<< 19

def segMax : ℕ := 2 <<< 21

def lastByte (h : Fp) : Byte := h.val.getD 5 0

/-- `(hash[5] << 2) >> 2 == 0x3f`. The `char` is signed and promoted to `int`
before it is shifted. -/
def atBoundary (h : Fp) : Bool :=
  (((BitVec.ofNat 8 (lastByte h).val).signExtend 32) <<< 2).sshiftRight 2 = 0x3f#32

inductive Cause where
  | size
  | fingerprint
  deriving DecidableEq

def cutBefore (sqSize : ℕ) (e : Node) : Option Cause :=
  if (sqSize + e.size) % 2 ^ 64 > segMax then some .size
  else if sqSize ≥ segMin ∧ atBoundary e.key = true then some .fingerprint
  else none

theorem atBoundary_iff (h : Fp) : atBoundary h = true ↔ lastByte h = 0x3f := by
  have hall : ∀ b : Byte, (((BitVec.ofNat 8 b.val).signExtend 32) <<< 2).sshiftRight 2 = 0x3f#32
      ↔ b = 0x3f := by
    decide +kernel
  rw [atBoundary, decide_eq_true_eq]
  exact hall (lastByte h)

/-! ### read_hashes and main -/

/-- What distinguishes the programs, on their other globals `σ`: `process_seg`,
`none` where it would take the top of an empty `pq`, the loop that empties `pq`,
and what follows `sq.push(entry)`. -/
structure Program (σ : Type) where
  processSeg : σ → List Node → Option σ
  clear : σ → σ
  accept : σ → Node → σ

structure Loop (σ : Type) where
  sq : List Node
  sqSize : ℕ
  env : σ

section Run

variable {σ : Type} (P : Program σ)

def Loop.queue (s : Loop σ) (entry : Node) : Loop σ :=
  ⟨s.sq ++ [entry], (s.sqSize + entry.size) % 2 ^ 64, P.accept s.env entry⟩

def readHash (s : Loop σ) (entry : Node) : Option (Loop σ) :=
  if (cutBefore s.sqSize entry).isSome then
    (P.processSeg s.env s.sq).map fun env => Loop.queue P ⟨[], 0, P.clear env⟩ entry
  else some (s.queue P entry)

def run (env : σ) (trace : List Node) : Option σ :=
  (trace.foldlM (readHash P) ⟨[], 0, env⟩).bind fun s => P.processSeg s.env s.sq

def main (env : σ) (text : List Char) : Option σ :=
  (readChunks text).bind fun cs => run P env (cs.map Node.ofChunk)

/-! ### The segments -/

def total (seg : List Node) : ℕ := (seg.map Node.size).sum

@[simp] theorem total_nil : total [] = 0 := rfl

@[simp] theorem total_singleton (e : Node) : total [e] = e.size := by simp [total]

theorem total_cons (e : Node) (s : List Node) : total (e :: s) = e.size + total s := by
  simp [total]

theorem total_append (s t : List Node) : total (s ++ t) = total s + total t := by
  simp [total]

theorem total_concat (s : List Node) (e : Node) : total (s ++ [e]) = total s + e.size := by
  rw [total_append, total_singleton]

def segRule (cur : List Node) (e : Node) : Option Cause := cutBefore (total cur % 2 ^ 64) e

def segments (trace : List Node) : List (List Node) := Cut.segs segRule [] trace

theorem segments_flatten (trace : List Node) : (segments trace).flatten = trace := by
  rw [segments, Cut.segs_flatten, List.nil_append]

def segStep (env : σ) (seg : List Node) : Option σ :=
  P.processSeg (seg.foldl P.accept (P.clear env)) seg

-- `env` is what the last call of `process_seg` left
def holding (cur : List Node) (env : σ) : Loop σ :=
  ⟨cur, total cur % 2 ^ 64, cur.foldl P.accept (P.clear env)⟩

theorem readHash_keep {cur : List Node} {e : Node} (h : segRule cur e = none) (env : σ) :
    readHash P (holding P cur env) e = some (holding P (cur ++ [e]) env) := by
  have hcut : cutBefore (holding P cur env).sqSize e = none := h
  rw [readHash, hcut, Loop.queue, holding, holding, total_concat, Nat.mod_add_mod,
    List.foldl_append]
  rfl

theorem readHash_cut {cur : List Node} {e : Node} {cause : Cause} (h : segRule cur e = some cause)
    (env : σ) : readHash P (holding P cur env) e = (segStep P env cur).map (holding P [e]) := by
  have hcut : cutBefore (holding P cur env).sqSize e = some cause := h
  have hopen : ∀ env', Loop.queue P ⟨[], 0, P.clear env'⟩ e = holding P [e] env' := by
    intro env'
    rw [Loop.queue, holding, total_singleton, Nat.zero_add]
    rfl
  rw [readHash, hcut, segStep]
  simp only [Option.isSome_some, if_true, hopen]
  rfl

theorem run_from (cur l : List Node) (env : σ) :
    (l.foldlM (readHash P) (holding P cur env)).bind (fun s => P.processSeg s.env s.sq)
      = (Cut.segs segRule cur l).foldlM (segStep P) env := by
  induction l generalizing cur env with
  | nil =>
    rw [Cut.segs_nil, List.foldlM_cons]
    simp only [List.foldlM_nil, Option.pure_def, Option.bind_some, Option.bind_eq_bind,
      Option.bind_fun_some]
    rfl
  | cons e l ih =>
    cases h : segRule cur e with
    | none =>
      rw [Cut.segs_cons_none h, List.foldlM_cons, readHash_keep P h, ← ih (cur ++ [e]) env]
      rfl
    | some cause =>
      rw [Cut.segs_cons_some h, List.foldlM_cons, List.foldlM_cons, readHash_cut P h]
      cases segStep P env cur with
      | none => rfl
      | some env' => exact ih [e] env'

/-- A program handles one segment after the other. -/
theorem run_eq (env : σ) (henv : P.clear env = env) (trace : List Node) :
    run P env trace = (segments trace).foldlM (segStep P) env := by
  have hstart : holding P [] env = ⟨[], 0, env⟩ := by
    rw [holding, henv]
    rfl
  rw [segments, ← run_from P [] trace env, hstart]
  rfl

end Run

/-! ### Sizes -/

theorem segRule_eq {cur : List Node} {e : Node} (h : total cur + e.size < 2 ^ 64) :
    segRule cur e = if total cur + e.size > segMax then some .size
      else if segMin ≤ total cur ∧ atBoundary e.key = true then some .fingerprint
      else none := by
  have hcur : total cur % 2 ^ 64 = total cur := Nat.mod_eq_of_lt (by omega)
  rw [segRule, cutBefore, hcur, Nat.mod_eq_of_lt h]

theorem segRule_none {cur : List Node} {e : Node} (h : segRule cur e = none)
    (hfit : total cur + e.size < 2 ^ 64) : total cur + e.size ≤ segMax := by
  rw [segRule_eq hfit] at h
  split_ifs at h
  omega

/-- A segment fits below the limit, or is one chunk that does not. -/
def Bounded (seg : List Node) : Prop :=
  total seg ≤ segMax ∨ ∃ e, seg = [e] ∧ segMax < e.size

theorem segments_bounded {trace : List Node} (h : ∀ e ∈ trace, e.size < 2 ^ 31) :
    ∀ seg ∈ segments trace, Bounded seg := by
  have hP : ∀ seg ∈ segments trace, Bounded seg ∧ total seg < 2 ^ 31 := by
    refine Cut.segs_invariant (Q := fun e => e.size < 2 ^ 31) ?_ ?_ ?_ h
    · intro e he
      rw [Bounded, total_singleton]
      refine ⟨?_, he⟩
      rcases Nat.lt_or_ge segMax e.size with hlt | hge
      · exact Or.inr ⟨e, rfl, hlt⟩
      · exact Or.inl hge
    · intro cur e he hcur hrule
      have hle := segRule_none hrule (by omega)
      rw [Bounded, total_concat]
      refine ⟨Or.inl hle, lt_of_le_of_lt hle (by decide)⟩
    · exact ⟨Or.inl (Nat.zero_le _), by decide⟩
  exact fun seg hseg => (hP seg hseg).1

theorem segments_cons_ne_nil {e : Node} (he : e.size ≤ segMax) (l : List Node) :
    ∀ seg ∈ segments (e :: l), seg ≠ [] := by
  have hfirst : segRule [] e = none := by
    have hmax : segMax < 2 ^ 64 := by decide
    have hmin : ¬ (segMin ≤ 0 ∧ atBoundary e.key = true) := fun h => absurd h.1 (by decide)
    rw [segRule_eq (by rw [total_nil]; omega), total_nil, if_neg (by omega), if_neg hmin]
  rw [segments, Cut.segs_cons_none hfirst, List.nil_append]
  refine Cut.segs_invariant (Q := fun _ => True) ?_ ?_ ?_ fun _ _ => trivial
  · intro a _
    exact List.cons_ne_nil a []
  · intro cur a _ _ _
    exact List.append_ne_nil_of_right_ne_nil cur (List.cons_ne_nil a [])
  · exact List.cons_ne_nil e []

theorem segments_ne_nil {trace : List Node} (hne : trace ≠ []) (h : ∀ e ∈ trace, e.size ≤ segMax) :
    ∀ seg ∈ segments trace, seg ≠ [] := by
  obtain ⟨e, l, rfl⟩ := List.exists_cons_of_ne_nil hne
  exact segments_cons_ne_nil (h e (List.mem_cons_self ..)) l

theorem nil_mem_segments_of_lt {e : Node} (he : segMax < e.size) (hlt : e.size < 2 ^ 64)
    (l : List Node) : [] ∈ segments (e :: l) := by
  have hfirst : segRule [] e = some .size := by
    rw [segRule_eq (by rw [total_nil]; omega), total_nil, if_pos (by omega)]
  rw [segments, Cut.segs_cons_some hfirst]
  exact List.mem_cons_self ..

/-! ### Printing nodes -/

def Node.record (e : Node) : Fp × ℕ := (e.key, e.size)

def Node.chunk (e : Node) : Chunk := ⟨e.key, e.size⟩

def printNodes (es : List Node) : List Char := putLines (es.map fun e => printLine e.key e.size)

theorem printNodes_append (es es' : List Node) :
    printNodes (es ++ es') = printNodes es ++ printNodes es' := by
  simp [printNodes, putLines]

def titleText : List Char := titleLine ++ ['\n']

theorem titleText_printNodes (es : List Node) :
    titleText ++ printNodes es = printTrace (es.map Node.record) := by
  rw [printTrace, List.map_map]
  rfl

theorem readChunks_printNodes {es : List Node} (h : ∀ e ∈ es, e.size < 2 ^ 31) :
    readChunks (titleText ++ printNodes es) = some (es.map Node.chunk) := by
  have hsize : ∀ r ∈ es.map Node.record, r.2 < 2 ^ 31 := List.forall_mem_map.mpr h
  rw [titleText_printNodes, readChunks_printTrace _ hsize, List.map_map]
  rfl

theorem readFps_printNodes {es : List Node} (h : ∀ e ∈ es, e.size < 2 ^ 31) :
    readFps (titleText ++ printNodes es) = es.map Node.key := by
  rw [readFps_of_readChunks _ _ (readChunks_printNodes h), List.map_map]
  rfl

theorem Node.chunk_ofChunk {c : Chunk} (h0 : 0 ≤ c.size) (h : c.size < 2 ^ 31) :
    (Node.ofChunk c).chunk = c ∧ (Node.ofChunk c).size < 2 ^ 31 := by
  have hmod : c.size % 2 ^ 64 = c.size := Int.emod_eq_of_lt h0 (by omega)
  obtain ⟨hash, size⟩ := c
  simp only [Node.ofChunk, Node.chunk, Chunk.mk.injEq, true_and] at hmod ⊢
  rw [hmod]
  simp only at h0 h
  omega

theorem map_chunk_ofChunk {cs : List Chunk} (h : ∀ c ∈ cs, 0 ≤ c.size ∧ c.size < 2 ^ 31) :
    (cs.map Node.ofChunk).map Node.chunk = cs := by
  have hone : ∀ c ∈ cs, (Node.ofChunk c).chunk = c :=
    fun c hc => (Node.chunk_ofChunk (h c hc).1 (h c hc).2).1
  rw [List.map_map]
  exact (List.map_congr_left hone).trans (List.map_id cs)

theorem ofChunk_size_lt {cs : List Chunk} (h : ∀ c ∈ cs, 0 ≤ c.size ∧ c.size < 2 ^ 31) :
    ∀ e ∈ cs.map Node.ofChunk, e.size < 2 ^ 31 := by
  intro e he
  obtain ⟨c, hc, rfl⟩ := List.mem_map.mp he
  exact (Node.chunk_ofChunk (h c hc).1 (h c hc).2).2

-- the third chunk would take the first segment above its limit
def twoSegments : List (Fp × ℕ) :=
  [(.filled 2, 3000000), (.filled 1, 1000000), (.filled 2, 3000000), (.filled 3, 5)]

theorem segments_twoSegments :
    segments (twoSegments.map fun r => ⟨r.1, r.2⟩)
      = [[⟨.filled 2, 3000000⟩, ⟨.filled 1, 1000000⟩], [⟨.filled 2, 3000000⟩, ⟨.filled 3, 5⟩]] := by
  decide +kernel

end FreqAnalysis.Defense
