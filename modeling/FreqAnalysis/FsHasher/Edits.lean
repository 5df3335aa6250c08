import FreqAnalysis.FsHasher.Process

/-!
# The chunks of a file (fs-hasher.c)

The chunks of a method are consecutive pieces of the file, of sizes in the method's range.
Where they end is decided by the bytes of the chunk alone. So an edit keeps the chunks in
front of it, and from the first boundary behind it that both versions share, the chunks of
both are the same: this is where the duplicate chunks of two backups come from.
-/

namespace FreqAnalysis.FsHasher
open Base

/-- An edit from `d` to `d'` between `p` and `s`. The chunks in front of it stay, and behind
a boundary in `s` that both versions have, the chunks are the same. -/
theorem edit_keeps_chunks (m : ChnkMethod) (hvalid : m.Valid) (p d d' s : List Byte)
    {A X : List (List Byte)} (hold : chunksOf m (p ++ d ++ s) = A ++ X) (hX : X ≠ [])
    (hfront : A.flatten.length ≤ p.length) :
    ∃ X', chunksOf m (p ++ d' ++ s) = A ++ X' ∧
      ∀ Y Z Y' Z', X = Y ++ Z → X' = Y' ++ Z' →
        (p ++ d).length ≤ (A ++ Y).flatten.length →
        (A ++ Y).flatten.length + d'.length = (A ++ Y').flatten.length + d.length →
        Z = Z' := by
  obtain ⟨C, hcuts, -⟩ := m.exists_cutter hvalid
  rw [chunksOf_eq hcuts] at hold ⊢
  -- what the chunks in front of the edit hold is the start of both versions
  obtain ⟨rest, hflat, -⟩ := C.chunks_flatten m.tails (p ++ d ++ s)
  obtain ⟨p', hp⟩ : ∃ p', p = A.flatten ++ p' := by
    refine ⟨p.drop A.flatten.length, ?_⟩
    rw [hold, List.flatten_append, List.append_assoc, List.append_assoc] at hflat
    have htake := congrArg (List.take A.flatten.length) hflat
    rw [List.take_left' rfl, List.take_append_of_le_length hfront] at htake
    conv_lhs => rw [← List.take_append_drop A.flatten.length p, ← htake]
  have hnew : C.chunks m.tails (p ++ d' ++ s) = A ++ C.chunks m.tails (p' ++ d' ++ s) := by
    rw [hp, List.append_assoc, List.append_assoc, C.chunks_before m.tails hold hX,
      List.append_assoc]
  refine ⟨_, hnew, ?_⟩
  intro Y Z Y' Z' hY hY' hbehind hsame
  rw [hY, ← List.append_assoc] at hold
  rw [hY', ← List.append_assoc] at hnew
  -- behind the boundary both versions have the same bytes of `s`
  rw [← C.chunks_behind m.tails hold, ← C.chunks_behind m.tails hnew]
  congr 1
  have hbehind' : (p ++ d').length ≤ (A ++ Y').flatten.length := by
    rw [List.length_append] at hbehind ⊢
    omega
  have hdrop : ∀ (q : List Byte) (k : ℕ), q.length ≤ k →
      (q ++ s).drop k = s.drop (k - q.length) := by
    intro q k hk
    rw [List.drop_append, List.drop_eq_nil_of_le hk, List.nil_append]
  rw [hdrop _ _ hbehind, hdrop _ _ hbehind', List.length_append, List.length_append]
  congr 1
  omega

def oldVersion : List Byte := [9, 9, 9, 1, 2] ++ [9] ++ [9, 9, 9, 1, 2, 9, 9, 9, 1, 2, 5]

def newVersion : List Byte := [9, 9, 9, 1, 2] ++ [] ++ [9, 9, 9, 1, 2, 9, 9, 9, 1, 2, 5]

/-- One byte less: the second chunk differs, the first and the last two do not. -/
theorem edit_keeps_chunks_small :
    (chunksOf (.var VarChnkParams.smallParams) newVersion).drop 2 = [[9, 9, 9, 1, 2], [5]] := by
  have hold : chunksOf (.var VarChnkParams.smallParams) oldVersion
      = [[9, 9, 9, 1, 2]] ++ [[9, 9, 9, 9, 1, 2], [9, 9, 9, 1, 2], [5]] := by decide +kernel
  obtain ⟨X', hnew, hbehind⟩ := edit_keeps_chunks (.var VarChnkParams.smallParams)
    VarChnkParams.smallParams_valid [9, 9, 9, 1, 2] [9] [] [9, 9, 9, 1, 2, 9, 9, 9, 1, 2, 5]
    hold (List.cons_ne_nil _ _) (by decide)
  have hX' : X' = (chunksOf (.var VarChnkParams.smallParams) newVersion).drop 1 := by
    rw [newVersion, hnew]
    rfl
  have hsplit : X' = [[9, 9, 9, 1, 2]] ++ X'.drop 1 := by
    rw [hX']
    decide +kernel
  have hsame := hbehind [[9, 9, 9, 9, 1, 2]] _ _ _ rfl hsplit (by decide) (by decide)
  rw [newVersion, hnew]
  exact hsame.symm

end FreqAnalysis.FsHasher
