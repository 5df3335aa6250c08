import FreqAnalysis.Base.Tally
import FreqAnalysis.Fingerprint

/-!
# Neighbour records

A value of the left and right databases is a concatenation of 14-byte records:
a fingerprint and a little-endian `uint64_t` count. `locality_count.cc` edits
such a value in place, and `locality_attack.cc` reads it record by record. On
well-formed values the edit is `Tally.bump`, counts being taken modulo 2^64.
-/

namespace FreqAnalysis.Locality
open Base

def countSize : ℕ := 8

def recordSize : ℕ := fpSize + countSize

def recordBytes (e : Fp × ℕ) : List Byte := e.1.val ++ leBytes countSize e.2

def encodeRecords (es : List (Fp × ℕ)) : List Byte := es.flatMap recordBytes

/-! ### Reading -/

/-- The loop `while (len < existing_value.size())` of `left_insert` and
`right_insert`, on the rest of the value. -/
def recordsFrom : ℕ → List Byte → List (Fp × ℕ)
  | 0, _ => []
  | fuel + 1, value =>
    if value = [] then []
    else (Fp.ofBytes (value.take fpSize), leVal ((value.drop fpSize).take countSize)) ::
      recordsFrom fuel (value.drop recordSize)

def records (value : List Byte) : List (Fp × ℕ) := recordsFrom value.length value

theorem recordBytes_length (e : Fp × ℕ) : (recordBytes e).length = recordSize := by
  rw [recordBytes, List.length_append, e.1.property, leBytes_length, recordSize]

theorem encodeRecords_cons (e : Fp × ℕ) (es : List (Fp × ℕ)) :
    encodeRecords (e :: es) = recordBytes e ++ encodeRecords es := List.flatMap_cons ..

theorem encodeRecords_length (es : List (Fp × ℕ)) :
    (encodeRecords es).length = recordSize * es.length := by
  induction es with
  | nil => rfl
  | cons e es ih =>
    rw [encodeRecords_cons, List.length_append, recordBytes_length, ih, List.length_cons]
    ring

theorem take_recordBytes (e : Fp × ℕ) (rest : List Byte) :
    (recordBytes e ++ rest).take fpSize = e.1.val := by
  rw [recordBytes, List.append_assoc, List.take_left' e.1.property]

theorem drop_recordBytes (e : Fp × ℕ) (rest : List Byte) :
    (recordBytes e ++ rest).drop fpSize = leBytes countSize e.2 ++ rest := by
  rw [recordBytes, List.append_assoc, List.drop_left' e.1.property]

theorem recordsFrom_encode (fuel : ℕ) (es : List (Fp × ℕ)) (h : es.length ≤ fuel) :
    recordsFrom fuel (encodeRecords es) = es.map (fun e => (e.1, e.2 % 256 ^ countSize)) := by
  induction fuel generalizing es with
  | zero =>
    have : es = [] := List.eq_nil_of_length_eq_zero (by omega)
    subst this
    rfl
  | succ fuel ih =>
    cases es with
    | nil => rfl
    | cons e es =>
      have hne : ¬ encodeRecords (e :: es) = [] := by
        intro hnil
        have hlen := encodeRecords_length (e :: es)
        rw [hnil, List.length_cons] at hlen
        simp [recordSize, fpSize] at hlen
      have hrest : (encodeRecords (e :: es)).drop recordSize = encodeRecords es := by
        rw [encodeRecords_cons, List.drop_left' (recordBytes_length e)]
      rw [recordsFrom, if_neg hne, hrest, ih es (by simpa using h), encodeRecords_cons,
        take_recordBytes, drop_recordBytes, List.take_left' (leBytes_length ..), leVal_leBytes,
        Fp.ofBytes_val, List.map_cons]

theorem records_encode (es : List (Fp × ℕ)) :
    records (encodeRecords es) = es.map (fun e => (e.1, e.2 % 256 ^ countSize)) := by
  apply recordsFrom_encode _ es
  rw [encodeRecords_length]
  exact Nat.le_mul_of_pos_left _ (by decide)

theorem recordBytes_split {value : List Byte} (h : recordSize ≤ value.length) :
    recordBytes (Fp.ofBytes (value.take fpSize), leVal ((value.drop fpSize).take countSize))
      = value.take recordSize := by
  have hkey : (value.take fpSize).length = fpSize := by
    rw [List.length_take]
    exact min_eq_left (le_trans (by decide) h)
  have hcount : ((value.drop fpSize).take countSize).length = countSize := by
    rw [List.length_take, List.length_drop]
    exact min_eq_left (by unfold recordSize at h; omega)
  have hfp : (Fp.ofBytes (value.take fpSize)).val = value.take fpSize :=
    congrArg Subtype.val (Fp.ofBytes_val ⟨value.take fpSize, hkey⟩)
  have hle := leBytes_leVal ((value.drop fpSize).take countSize)
  rw [hcount] at hle
  rw [recordBytes, hfp, hle, recordSize, List.take_add]

theorem encodeRecords_recordsFrom (fuel n : ℕ) (value : List Byte) (hn : n ≤ fuel)
    (h : value.length = recordSize * n) : encodeRecords (recordsFrom fuel value) = value := by
  induction fuel generalizing n value with
  | zero =>
    have hnil : value = [] := List.eq_nil_of_length_eq_zero (by rw [h]; simp; omega)
    rw [hnil]
    rfl
  | succ fuel ih =>
    cases n with
    | zero =>
      have hnil : value = [] := List.eq_nil_of_length_eq_zero (by rw [h, Nat.mul_zero])
      rw [hnil]
      rfl
    | succ n =>
      have hle : recordSize ≤ value.length := by
        rw [h]
        exact Nat.le_mul_of_pos_right _ (Nat.succ_pos n)
      have hne : ¬ value = [] := by
        intro hnil
        rw [hnil] at hle
        exact absurd hle (by decide)
      have hrest : (value.drop recordSize).length = recordSize * n := by
        rw [List.length_drop, h, Nat.mul_succ, Nat.add_sub_cancel]
      rw [recordsFrom, if_neg hne, encodeRecords_cons, recordBytes_split hle,
        ih n (value.drop recordSize) (by omega) hrest, List.take_append_drop]

/-- The reader decodes every concatenation of 14-byte records. -/
theorem encodeRecords_records {value : List Byte} (h : recordSize ∣ value.length) :
    encodeRecords (records value) = value := by
  obtain ⟨n, hn⟩ := h
  refine encodeRecords_recordsFrom _ n value ?_ hn
  rw [hn]
  exact Nat.le_mul_of_pos_left n (by decide)

/-! ### Counting one more neighbour -/

/-- The loop `while (pos < existing_value.size()-1)`: the position of the
record of `y`. A stored value is never empty, so the bound does not wrap; `pos` is
an `int`, so values are taken to be shorter than 2 GiB. -/
def findRecord (value : List Byte) (y : Fp) : ℕ → ℕ → Option ℕ
  | 0, _ => none
  | fuel + 1, pos =>
    if pos < value.length - 1 then
      if (value.drop pos).take fpSize = y.val then some pos
      else findRecord value y fuel (pos + recordSize)
    else none

def replaceCount (value : List Byte) (pos : ℕ) : List Byte :=
  let icm := leVal ((value.drop (pos + fpSize)).take countSize)
  value.take (pos + fpSize) ++ leBytes countSize (icm + 1) ++
    value.drop (pos + fpSize + countSize)

def countRecord (value : List Byte) (y : Fp) : List Byte :=
  match findRecord value y value.length 0 with
  | some pos => replaceCount value pos
  | none => value ++ y.val ++ leBytes countSize 1

theorem replaceCount_at (pre rest : List Byte) (e : Fp × ℕ) :
    replaceCount (pre ++ recordBytes e ++ rest) pre.length
      = pre ++ recordBytes (e.1, e.2 + 1) ++ rest := by
  have hfp : e.1.val.length = fpSize := e.1.property
  have hkey : (pre ++ e.1.val).length = pre.length + fpSize := by rw [List.length_append, hfp]
  have hall : (pre ++ e.1.val ++ leBytes countSize e.2).length
      = pre.length + fpSize + countSize := by
    rw [List.length_append, hkey, leBytes_length]
  have hcount : leBytes countSize (e.2 % 256 ^ countSize + 1) = leBytes countSize (e.2 + 1) :=
    leBytes_mod _ _ _ (by rw [Nat.mod_add_mod])
  have hv : pre ++ recordBytes e ++ rest
      = pre ++ e.1.val ++ leBytes countSize e.2 ++ rest := by
    simp only [recordBytes, List.append_assoc]
  have hdrop : (pre ++ e.1.val ++ leBytes countSize e.2 ++ rest).drop (pre.length + fpSize)
      = leBytes countSize e.2 ++ rest := by
    rw [List.append_assoc, List.drop_left' hkey]
  have htake : (pre ++ e.1.val ++ leBytes countSize e.2 ++ rest).take (pre.length + fpSize)
      = pre ++ e.1.val := by
    rw [List.append_assoc, List.take_left' hkey]
  rw [hv, replaceCount, hdrop, htake, List.drop_left' hall, List.take_left' (leBytes_length ..),
    leVal_leBytes, hcount]
  simp only [recordBytes, List.append_assoc]

theorem countRecord_from (pre : List Byte) (es : List (Fp × ℕ)) (y : Fp) (fuel : ℕ)
    (h : es.length ≤ fuel) :
    (match findRecord (pre ++ encodeRecords es) y fuel pre.length with
      | some pos => replaceCount (pre ++ encodeRecords es) pos
      | none => pre ++ encodeRecords es ++ y.val ++ leBytes countSize 1)
      = pre ++ encodeRecords (Tally.bumpEntries y es) := by
  induction es generalizing pre fuel with
  | nil =>
    have hnone : findRecord (pre ++ encodeRecords []) y fuel pre.length = none := by
      cases fuel with
      | zero => rfl
      | succ fuel =>
        have hend : ¬ pre.length < (pre ++ encodeRecords []).length - 1 := by
          simp [encodeRecords]
        rw [findRecord, if_neg hend]
    rw [hnone]
    simp [encodeRecords, Tally.bumpEntries, recordBytes]
  | cons e es ih =>
    obtain ⟨fuel, rfl⟩ : ∃ k, fuel = k + 1 := ⟨fuel - 1, by simp at h; omega⟩
    have hv : pre ++ encodeRecords (e :: es) = pre ++ recordBytes e ++ encodeRecords es := by
      rw [encodeRecords_cons, List.append_assoc]
    have hin : pre.length < (pre ++ recordBytes e ++ encodeRecords es).length - 1 := by
      rw [List.length_append, List.length_append, recordBytes_length]
      simp [recordSize, fpSize, countSize]
      omega
    have hread : ((pre ++ recordBytes e ++ encodeRecords es).drop pre.length).take fpSize
        = e.1.val := by
      rw [List.append_assoc, List.drop_left, take_recordBytes]
    rw [hv, findRecord, if_pos hin, hread]
    by_cases hy : e.1 = y
    · have hval : e.1.val = y.val := congrArg Subtype.val hy
      have hbump : Tally.bumpEntries y (e :: es) = (e.1, e.2 + 1) :: es := if_pos hy
      rw [if_pos hval, hbump, encodeRecords_cons, ← List.append_assoc]
      exact replaceCount_at pre (encodeRecords es) e
    · have hval : ¬ e.1.val = y.val := fun h => hy (Subtype.ext h)
      have hbump : Tally.bumpEntries y (e :: es) = e :: Tally.bumpEntries y es := if_neg hy
      have hpos : pre.length + recordSize = (pre ++ recordBytes e).length := by
        rw [List.length_append, recordBytes_length]
      rw [if_neg hval, hbump, encodeRecords_cons, ← List.append_assoc, hpos]
      exact ih (pre ++ recordBytes e) fuel (by simp at h; omega)

/-- The in-place edit of a well-formed value counts `y` once more. -/
theorem countRecord_encode (es : List (Fp × ℕ)) (y : Fp) :
    countRecord (encodeRecords es) y = encodeRecords (Tally.bumpEntries y es) := by
  have hfuel : es.length ≤ (encodeRecords es).length := by
    rw [encodeRecords_length]
    exact Nat.le_mul_of_pos_left _ (by decide)
  have := countRecord_from [] es y _ hfuel
  simpa only [countRecord, List.nil_append, List.length_nil] using this

end FreqAnalysis.Locality
