import Mathlib.Data.List.Basic
import Mathlib.Tactic.Common

/-!
# Cutting a stream into chunks

A cutter looks at the data it has and answers with the length of the next chunk, or asks
for more. Its answer is final: it rests on the bytes of the chunk alone, and enough data
always get one. `ofHits` is the cutter that ends a chunk at the first length from `lo` on where the
bytes so far satisfy a predicate, and at `hi` if there is none.
-/

namespace FreqAnalysis.Base

structure Cutter (α : Type*) where
  cut : List α → Option ℕ
  max : ℕ
  bounds : ∀ {l n}, cut l = some n → 0 < n ∧ n ≤ l.length
  final : ∀ {l n}, cut l = some n → ∀ l', cut (l.take n ++ l') = some n
  enough : ∀ {l}, max ≤ l.length → cut l ≠ none

/-! ### The first hit -/

def firstHit (p : ℕ → Bool) (lo hi : ℕ) : Option ℕ := (List.range' lo (hi - lo)).find? p

theorem firstHit_of_le {p : ℕ → Bool} {lo hi : ℕ} (h : hi ≤ lo) : firstHit p lo hi = none := by
  rw [firstHit, Nat.sub_eq_zero_of_le h]
  rfl

theorem firstHit_of_lt {p : ℕ → Bool} {lo hi : ℕ} (h : lo < hi) :
    firstHit p lo hi = if p lo then some lo else firstHit p (lo + 1) hi := by
  obtain ⟨n, hn⟩ : ∃ n, hi - lo = n + 1 := ⟨hi - lo - 1, by omega⟩
  have hn' : hi - (lo + 1) = n := by omega
  rw [firstHit, firstHit, hn, hn', List.range'_succ, List.find?_cons]
  cases p lo with
  | true => rfl
  | false => rfl

theorem firstHit_eq_some_iff {p : ℕ → Bool} {lo hi n : ℕ} :
    firstHit p lo hi = some n ↔
      lo ≤ n ∧ n < hi ∧ p n = true ∧ ∀ k, lo ≤ k → k < n → p k = false := by
  rw [firstHit, List.find?_range'_eq_some, List.mem_range'_1]
  constructor
  · rintro ⟨hp, ⟨hlo, hhi⟩, hno⟩
    refine ⟨hlo, by omega, hp, ?_⟩
    intro k hk hkn
    simpa using hno k hk hkn
  · rintro ⟨hlo, hhi, hp, hno⟩
    refine ⟨hp, ⟨hlo, by omega⟩, ?_⟩
    intro k hk hkn
    simpa using hno k hk hkn

theorem firstHit_eq_none_iff {p : ℕ → Bool} {lo hi : ℕ} :
    firstHit p lo hi = none ↔ ∀ k, lo ≤ k → k < hi → p k = false := by
  rw [firstHit, List.find?_range'_eq_none]
  constructor
  · intro h k hlo hhi
    simpa using h k hlo (by omega)
  · intro h k hlo hhi
    simpa using h k hlo (by omega)

/-! ### Cutters by hits -/

section Hits

variable {α : Type*} (hit : List α → Bool) (lo hi : ℕ)

def hitCut (l : List α) : Option ℕ :=
  if l.length < lo then none
  else
    match firstHit (fun k => hit (l.take k)) lo (min (l.length + 1) hi) with
    | some n => some n
    | none => if hi ≤ l.length then some hi else none

variable {hit lo hi}

/-- Where a chunk ends: at the first hit, or at `hi` for want of one. -/
theorem hitCut_eq_some_iff {l : List α} {n : ℕ} (hle : lo ≤ hi) :
    hitCut hit lo hi l = some n ↔ lo ≤ n ∧ n ≤ hi ∧ n ≤ l.length ∧
      (n < hi → hit (l.take n) = true) ∧ ∀ k, lo ≤ k → k < n → hit (l.take k) = false := by
  unfold hitCut
  split
  next hshort =>
    constructor
    · intro h
      cases h
    · rintro ⟨hlo, -, hlen, -⟩
      omega
  next hlong =>
    cases hfirst : firstHit (fun k => hit (l.take k)) lo (min (l.length + 1) hi) with
    | some m =>
      obtain ⟨hlo, hlt, hhit, hno⟩ := firstHit_eq_some_iff.mp hfirst
      simp only [Option.some.injEq]
      constructor
      · rintro rfl
        exact ⟨hlo, by omega, by omega, fun _ => hhit, hno⟩
      · rintro ⟨hlo', hhi', hlen', hhit', hno'⟩
        rcases Nat.lt_trichotomy m n with hmn | rfl | hnm
        · exact absurd hhit (by simp [hno' m hlo hmn])
        · rfl
        · exact absurd (hhit' (by omega)) (by simp [hno n hlo' hnm])
    | none =>
      have hno := firstHit_eq_none_iff.mp hfirst
      by_cases hfull : hi ≤ l.length
      · simp only [if_pos hfull, Option.some.injEq]
        constructor
        · rintro rfl
          exact ⟨hle, Nat.le_refl _, hfull, fun h => absurd h (Nat.lt_irrefl _),
            fun k hk hkn => hno k hk (by omega)⟩
        · rintro ⟨hlo', hhi', hlen', hhit', -⟩
          by_contra hne
          have hlt : n < hi := by omega
          exact absurd (hhit' hlt) (by simp [hno n hlo' (by omega)])
      · simp only [if_neg hfull]
        constructor
        · intro h
          cases h
        · rintro ⟨hlo', hhi', hlen', hhit', -⟩
          exact absurd (hhit' (by omega)) (by simp [hno n hlo' (by omega)])

theorem hitCut_ne_none {l : List α} (hle : lo ≤ hi) (h : hi ≤ l.length) :
    hitCut hit lo hi l ≠ none := by
  unfold hitCut
  rw [if_neg (by omega)]
  cases firstHit (fun k => hit (l.take k)) lo (min (l.length + 1) hi) with
  | some n => exact Option.some_ne_none n
  | none =>
    simp only [if_pos h]
    exact Option.some_ne_none hi

variable (hit) in
def Cutter.ofHits (lo hi : ℕ) (hlo : 0 < lo) (hle : lo ≤ hi) : Cutter α where
  cut := hitCut hit lo hi
  max := hi
  bounds := by
    intro l n h
    obtain ⟨h1, -, h2, -⟩ := (hitCut_eq_some_iff hle).mp h
    exact ⟨by omega, h2⟩
  final := by
    intro l n h l'
    obtain ⟨h1, h2, h3, hhit, hno⟩ := (hitCut_eq_some_iff hle).mp h
    have hlen : (l.take n).length = n := by
      rw [List.length_take]
      omega
    have htake : ∀ k ≤ n, (l.take n ++ l').take k = l.take k := by
      intro k hk
      rw [List.take_append_of_le_length (by omega), List.take_take, Nat.min_eq_left hk]
    apply (hitCut_eq_some_iff hle).mpr
    refine ⟨h1, h2, by rw [List.length_append]; omega, ?_, ?_⟩
    · rw [htake n (Nat.le_refl n)]
      exact hhit
    · intro k hk hkn
      rw [htake k (by omega)]
      exact hno k hk hkn
  enough := hitCut_ne_none hle

theorem Cutter.ofHits_size {hlo : 0 < lo} {hle : lo ≤ hi} {l : List α} {n : ℕ}
    (h : (Cutter.ofHits hit lo hi hlo hle).cut l = some n) : lo ≤ n ∧ n ≤ hi := by
  obtain ⟨h1, h2, -⟩ := (hitCut_eq_some_iff hle).mp h
  exact ⟨h1, h2⟩

instance : Nonempty (Cutter α) := ⟨.ofHits (fun _ => true) 1 1 Nat.one_pos (Nat.le_refl 1)⟩

end Hits

/-! ### The chunks of a stream -/

namespace Cutter

variable {α : Type*} (C : Cutter α) (tails : Bool)

theorem cut_nil : C.cut [] = none := by
  cases h : C.cut [] with
  | none => rfl
  | some n =>
    obtain ⟨hpos, hle⟩ := C.bounds h
    rw [List.length_nil] at hle
    omega

theorem length_take_of_cut {l : List α} {n : ℕ} (h : C.cut l = some n) :
    (l.take n).length = n := by
  have := (C.bounds h).2
  rw [List.length_take]
  omega

/-- More data do not change a cut. -/
theorem cut_append {l : List α} {n : ℕ} (h : C.cut l = some n) (l' : List α) :
    C.cut (l ++ l') = some n := by
  have hcut := C.final h (l.drop n ++ l')
  rwa [← List.append_assoc, List.take_append_drop] at hcut

def chunksFuel : ℕ → List α → List (List α)
  | 0, _ => []
  | fuel + 1, l =>
    match C.cut l with
    | some n => l.take n :: chunksFuel fuel (l.drop n)
    | none => if tails && !l.isEmpty then [l] else []

/-- The last data that no cut ends are a chunk of their own if `tails` is set. -/
def chunks (l : List α) : List (List α) := C.chunksFuel tails l.length l

theorem chunksFuel_eq {fuel : ℕ} {l : List α} (h : l.length ≤ fuel) :
    C.chunksFuel tails fuel l = C.chunks tails l := by
  induction fuel using Nat.strongRecOn generalizing l with
  | _ fuel ih =>
    cases fuel with
    | zero =>
      rw [List.length_eq_zero_iff.mp (Nat.le_zero.mp h)]
      rfl
    | succ fuel =>
      cases hl : l with
      | nil => simp [chunks, chunksFuel, C.cut_nil]
      | cons a l' =>
        rw [← hl]
        obtain ⟨m, hm⟩ : ∃ m, l.length = m + 1 := ⟨l'.length, by rw [hl, List.length_cons]⟩
        rw [chunks, hm, chunksFuel, chunksFuel]
        cases hcut : C.cut l with
        | none => rfl
        | some n =>
          obtain ⟨hpos, hle⟩ := C.bounds hcut
          have hdrop : (l.drop n).length ≤ m := by
            rw [List.length_drop]
            omega
          simp only
          rw [ih fuel (by omega) (by omega), ih m (by omega) hdrop]

theorem chunks_of_cut {l : List α} {n : ℕ} (h : C.cut l = some n) :
    C.chunks tails l = l.take n :: C.chunks tails (l.drop n) := by
  obtain ⟨hpos, hle⟩ := C.bounds h
  obtain ⟨m, hm⟩ : ∃ m, l.length = m + 1 := ⟨l.length - 1, by omega⟩
  have hdrop : (l.drop n).length ≤ m := by
    rw [List.length_drop]
    omega
  rw [chunks, hm, chunksFuel, h]
  simp only
  rw [C.chunksFuel_eq tails hdrop]

theorem chunks_of_none {l : List α} (h : C.cut l = none) :
    C.chunks tails l = if tails && !l.isEmpty then [l] else [] := by
  cases l with
  | nil => simp [chunks, chunksFuel]
  | cons a l => simp only [chunks, List.length_cons, chunksFuel, h]

/-- Induction along the cuts. -/
theorem cuts_induction {motive : List α → Prop} (hnone : ∀ l, C.cut l = none → motive l)
    (hcut : ∀ l n, C.cut l = some n → motive (l.drop n) → motive l) (l : List α) : motive l := by
  induction hlen : l.length using Nat.strongRecOn generalizing l with
  | _ m ih =>
    cases h : C.cut l with
    | none => exact hnone l h
    | some n =>
      obtain ⟨hpos, hle⟩ := C.bounds h
      have hdrop : (l.drop n).length < m := by
        rw [List.length_drop]
        omega
      exact hcut l n h (ih _ hdrop _ rfl)

/-- The chunks tile the stream, up to a rest without a cut that is dropped without
`tails`. -/
theorem chunks_flatten (l : List α) :
    ∃ rest, (C.chunks tails l).flatten ++ rest = l ∧ C.cut rest = none ∧
      (tails = true → rest = []) := by
  induction l using C.cuts_induction with
  | hnone l h =>
    rw [C.chunks_of_none tails h]
    cases tails with
    | false => exact ⟨l, rfl, h, fun h => nomatch h⟩
    | true =>
      refine ⟨[], ?_, C.cut_nil, fun _ => rfl⟩
      cases l with
      | nil => rfl
      | cons a l => simp
  | hcut l n h ih =>
    obtain ⟨rest, hflat, hrest, htails⟩ := ih
    refine ⟨rest, ?_, hrest, htails⟩
    rw [C.chunks_of_cut tails h, List.flatten_cons, List.append_assoc, hflat,
      List.take_append_drop]

/-- Every chunk is what the cutter takes from some data, or the rest at the end. -/
theorem forall_mem_chunks {l : List α} {p : List α → Prop}
    (hp : ∀ l n, C.cut l = some n → p (l.take n)) :
    ∀ c ∈ C.chunks tails l, p c ∨ C.cut c = none ∧ (C.chunks tails l).getLast? = some c := by
  induction l using C.cuts_induction with
  | hnone l h =>
    intro c hc
    rw [C.chunks_of_none tails h] at hc ⊢
    split at hc
    next ht =>
      rw [List.mem_singleton.mp hc]
      exact Or.inr ⟨h, by rw [if_pos ht]; rfl⟩
    next => exact absurd hc List.not_mem_nil
  | hcut l n h ih =>
    intro c hc
    rw [C.chunks_of_cut tails h] at hc ⊢
    rcases List.mem_cons.mp hc with rfl | hc
    · exact Or.inl (hp l n h)
    · rcases ih c hc with hpc | ⟨hnone, hlast⟩
      · exact Or.inl hpc
      · refine Or.inr ⟨hnone, ?_⟩
        rw [List.getLast?_cons, hlast]
        rfl

theorem length_chunks_le (l : List α) : (C.chunks tails l).length ≤ l.length := by
  induction l using C.cuts_induction with
  | hnone l h =>
    rw [C.chunks_of_none tails h]
    cases l with
    | nil => simp
    | cons a l =>
      split
      · simp
      · exact Nat.zero_le _
  | hcut l n h ih =>
    have hn := C.bounds h
    rw [List.length_drop] at ih
    rw [C.chunks_of_cut tails h, List.length_cons]
    omega

/-- Behind a boundary the chunks are those of what is left. -/
theorem chunks_behind {l : List α} {A X : List (List α)} (h : C.chunks tails l = A ++ X) :
    C.chunks tails (l.drop A.flatten.length) = X := by
  induction l using C.cuts_induction generalizing A with
  | hnone l hnone =>
    cases A with
    | nil => exact h
    | cons c A =>
      rw [C.chunks_of_none tails hnone] at h
      split at h
      next =>
        -- the chunk is all of the data, nothing is left
        obtain ⟨rfl, hAX⟩ := List.cons.inj h
        obtain ⟨rfl, rfl⟩ := List.append_eq_nil_iff.mp hAX.symm
        rw [List.drop_eq_nil_of_le (by simp), C.chunks_of_none tails C.cut_nil]
        simp
      next => cases h
  | hcut l n hcut ih =>
    cases A with
    | nil => exact h
    | cons c A =>
      rw [C.chunks_of_cut tails hcut] at h
      obtain ⟨rfl, hrest⟩ := List.cons.inj h
      rw [← ih hrest, List.flatten_cons, List.length_append, C.length_take_of_cut hcut,
        List.drop_drop]

/-- Chunks that are not the last are the start of the chunks of everything that begins
with their data. -/
theorem chunks_before {l : List α} {A X : List (List α)} (h : C.chunks tails l = A ++ X)
    (hX : X ≠ []) (more : List α) :
    C.chunks tails (A.flatten ++ more) = A ++ C.chunks tails more := by
  induction l using C.cuts_induction generalizing A with
  | hnone l hnone =>
    cases A with
    | nil => rfl
    | cons c A =>
      rw [C.chunks_of_none tails hnone] at h
      split at h
      next =>
        obtain ⟨-, hAX⟩ := List.cons.inj h
        exact absurd (List.append_eq_nil_iff.mp hAX.symm).2 hX
      next => cases h
  | hcut l n hcut ih =>
    cases A with
    | nil => rfl
    | cons c A =>
      rw [C.chunks_of_cut tails hcut] at h
      obtain ⟨rfl, hrest⟩ := List.cons.inj h
      have hfirst := C.final hcut (A.flatten ++ more)
      have hlen := C.length_take_of_cut hcut
      rw [List.flatten_cons, List.append_assoc, C.chunks_of_cut tails hfirst,
        List.take_left' hlen, List.drop_left' hlen, ih hrest, List.cons_append]

/-- With cuts of one size all chunks but the last have it. -/
theorem chunks_same_size {n : ℕ} (hcut : ∀ l k, C.cut l = some k → k = n)
    (hnone : ∀ l, C.cut l = none → l.length < n) (l : List α) :
    ((C.chunks tails l).length - 1) * n ≤ l.length ∧
      ∀ k c, (C.chunks tails l)[k]? = some c → c.length =
        if k + 1 = (C.chunks tails l).length
        then min n (l.length - ((C.chunks tails l).length - 1) * n) else n := by
  induction l using C.cuts_induction with
  | hnone l h =>
    have hlt := hnone l h
    rw [C.chunks_of_none tails h]
    split
    next =>
      refine ⟨by simp, ?_⟩
      intro k c hk
      obtain ⟨hlen, hc⟩ := List.getElem?_eq_some_iff.mp hk
      obtain rfl : k = 0 := by simpa using hlen
      rw [← hc]
      show l.length = if 0 + 1 = 1 then min n (l.length - 0 * n) else n
      rw [if_pos rfl, Nat.zero_mul, Nat.sub_zero, Nat.min_eq_right (Nat.le_of_lt hlt)]
    next => exact ⟨by simp, fun k c hk => by simp at hk⟩
  | hcut l m h ih =>
    obtain rfl := hcut l m h
    obtain ⟨hpos, hle⟩ := C.bounds h
    obtain ⟨hfull, hsizes⟩ := ih
    rw [C.chunks_of_cut tails h]
    rw [List.length_drop] at hfull hsizes
    generalize C.chunks tails (l.drop m) = cs at hfull hsizes
    rw [List.length_cons, Nat.add_sub_cancel]
    cases cs with
    | nil =>
      refine ⟨by simp, ?_⟩
      intro k c hk
      obtain ⟨hlen, hc⟩ := List.getElem?_eq_some_iff.mp hk
      obtain rfl : k = 0 := by simpa using hlen
      rw [← hc]
      show (l.take m).length = if 0 + 1 = 0 + 1 then min m (l.length - 0 * m) else m
      rw [if_pos rfl, Nat.zero_mul, Nat.sub_zero, Nat.min_eq_left hle, C.length_take_of_cut h]
    | cons d cs =>
      rw [List.length_cons, Nat.add_sub_cancel] at hfull hsizes
      rw [List.length_cons, Nat.succ_mul]
      refine ⟨by omega, ?_⟩
      intro k c hk
      cases k with
      | zero =>
        obtain rfl : l.take m = c := by simpa using hk
        rw [if_neg (by omega), C.length_take_of_cut h]
      | succ k =>
        rw [hsizes k c hk]
        have hiff : k + 1 + 1 = cs.length + 1 + 1 ↔ k + 1 = cs.length + 1 := by omega
        have hsub : l.length - (cs.length * m + m) = l.length - m - cs.length * m := by omega
        simp only [hiff, hsub]

end Cutter
end FreqAnalysis.Base
