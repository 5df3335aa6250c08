import FreqAnalysis.FsHasher.Rabin

/-!
# Chunking methods (fs-hasher.c)

`fixed_chnk_get_next_chunk` and `var_chnk_get_next_chunk` look for the next chunk in the
data that are left in the window. With valid parameters every method is a cutter: whether
the rest of the window is a chunk, and how long, is decided by the data alone. The simple
match reads eight bytes at every position, up to seven of them behind the data; the bits
it compares never come from there.
-/

namespace FreqAnalysis.FsHasher
open Base

structure FixedChnkParams where
  csize : ℕ
  tails : Bool

/-- What a `get_next_chunk` returns: the size of the chunk at the start of the buffer,
NULL with size 0, or NULL with size -1. -/
inductive NextChunk where
  | chunk (size : ℕ)
  | more
  | error
  deriving DecidableEq

def fixedGetNextChunk (fc : FixedChnkParams) (buffer : List Byte) (eof : Bool) : NextChunk :=
  if buffer.length < fc.csize then
    if eof && fc.tails then .chunk buffer.length else .more
  else .chunk fc.csize

/-! ### The simple match -/

namespace VarChnkParams

variable (vc : VarChnkParams)

def bytesToLookAt : ℕ := vc.matchBits / 8 + (if vc.matchBits % 8 ≠ 0 then 1 else 0)

/-- `*(uint64_t *)(buf + i)`; what lies behind the data is `stale`. -/
def slider (stale : ℕ → Byte) (buf : List Byte) (i : ℕ) : UInt64 :=
  UInt64.ofNat (leVal ((List.range 8).map fun j => buf.getD (i + j) (stale (i + j))))

def look (stale : ℕ → Byte) (buf : List Byte) : ℕ → ℕ → Option ℤ
  | 0, _ => none
  | fuel + 1, i =>
    if i + vc.bytesToLookAt ≤ buf.length ∧ i + vc.bytesToLookAt < vc.maxCsize then
      if vc.matched (slider stale buf i) then some ((i + vc.bytesToLookAt : ℕ) : ℤ)
      else look stale buf fuel (i + 1)
    else vc.afterLoop buf.length (i + vc.bytesToLookAt)

def simpleMatch (stale : ℕ → Byte) (buf : List Byte) : Option ℤ :=
  if buf.length < vc.minCsize then some 0
  else if vc.bytesToLookAt > 8 then some (-1)
  else if vc.minCsize < vc.bytesToLookAt then none
  else vc.look stale buf (buf.length + 1) (vc.minCsize - vc.bytesToLookAt)

structure SimpleValid (vc : VarChnkParams) : Prop where
  bits : vc.matchBits < 32
  fits : vc.bytesToLookAt ≤ vc.minCsize
  positive : 0 < vc.minCsize
  ordered : vc.minCsize ≤ vc.maxCsize

def simpleHit (pre : List Byte) : Bool :=
  vc.matched (UInt64.ofNat (leVal (lastBytes vc.bytesToLookAt pre)))

variable {vc}

theorem matchBits_le : vc.matchBits ≤ 8 * vc.bytesToLookAt := by
  unfold bytesToLookAt
  split
  · omega
  · omega

theorem bytesToLookAt_le (h : vc.matchBits < 32) : vc.bytesToLookAt ≤ 8 := by
  unfold bytesToLookAt
  split
  · omega
  · omega

theorem mask_toNat (h : vc.matchBits < 32) : vc.mask.toNat = 2 ^ vc.matchBits - 1 := by
  have hall : ∀ k < 32, ((1#32 <<< k - 1#32).signExtend 64).toNat = 2 ^ k - 1 := by decide
  rw [mask, UInt64.toNat_ofBitVec, Nat.mod_eq_of_lt h]
  exact hall vc.matchBits h

/-- Only the low `match_bits` bits count. -/
theorem matched_congr {x y : ℕ} (hbits : vc.matchBits < 32)
    (h : x % 2 ^ vc.matchBits = y % 2 ^ vc.matchBits) :
    vc.matched (UInt64.ofNat x) = vc.matched (UInt64.ofNat y) := by
  have hmask := mask_toNat hbits
  have hdvd : 2 ^ vc.matchBits ∣ 2 ^ 64 := pow_dvd_pow 2 (by omega)
  have hlow : ∀ z : ℕ, (UInt64.ofNat z &&& vc.mask).toNat = z % 2 ^ vc.matchBits := by
    intro z
    rw [UInt64.toNat_and, hmask, Nat.and_two_pow_sub_one_eq_mod, UInt64.toNat_ofNat',
      Nat.mod_mod_of_dvd z hdvd]
  have heq : UInt64.ofNat x &&& vc.mask = UInt64.ofNat y &&& vc.mask := by
    apply UInt64.toNat_inj.mp
    rw [hlow, hlow, h]
  rw [matched, matched, heq]

/-- The bytes behind the data do not matter. -/
theorem matched_slider (h : vc.matchBits < 32) (stale : ℕ → Byte) {buf : List Byte} {i : ℕ}
    (hi : i + vc.bytesToLookAt ≤ buf.length) :
    vc.matched (slider stale buf i) = vc.simpleHit (buf.take (i + vc.bytesToLookAt)) := by
  have hle := bytesToLookAt_le h
  have hwindow : lastBytes vc.bytesToLookAt (buf.take (i + vc.bytesToLookAt))
      = ((List.range 8).map fun j => buf.getD (i + j) (stale (i + j))).take vc.bytesToLookAt := by
    rw [lastBytes_take hi]
    apply List.ext_getElem
    · simp only [List.length_drop, List.length_take, List.length_map, List.length_range]
      omega
    · intro k h1 h2
      simp only [List.length_drop, List.length_take] at h1
      simp only [List.getElem_drop, List.getElem_take, List.getElem_map, List.getElem_range]
      rw [List.getD_eq_getElem _ _ (by omega)]
      congr 1
      omega
  rw [simpleHit, slider]
  apply matched_congr h
  rw [hwindow]
  generalize hbytes : (List.range 8).map (fun j => buf.getD (i + j) (stale (i + j))) = bytes
  have hlen : bytes.length = 8 := by
    rw [← hbytes, List.length_map, List.length_range]
  have htake : (bytes.take vc.bytesToLookAt).length = vc.bytesToLookAt := by
    rw [List.length_take, hlen]
    omega
  have hdvd : 2 ^ vc.matchBits ∣ 256 ^ vc.bytesToLookAt := by
    rw [show (256 : ℕ) = 2 ^ 8 by decide, ← pow_mul]
    exact pow_dvd_pow 2 matchBits_le
  conv_lhs => rw [← List.take_append_drop vc.bytesToLookAt bytes]
  obtain ⟨c, hc⟩ := hdvd
  rw [leVal_append, htake, hc, mul_assoc, Nat.add_mul_mod_self_left]

theorem look_eq (h : vc.SimpleValid) (stale : ℕ → Byte) {buf : List Byte} (fuel i k : ℕ)
    (hk : i + vc.bytesToLookAt = k) (hsize : k ≤ buf.length + 1) (hmax : k ≤ vc.maxCsize)
    (hfuel : buf.length + 2 ≤ fuel + k) :
    vc.look stale buf fuel i = some (vc.searched vc.simpleHit buf k) := by
  induction fuel generalizing i k with
  | zero => omega
  | succ fuel ih =>
    rw [look, hk]
    by_cases hloop : k ≤ buf.length ∧ k < vc.maxCsize
    · rw [if_pos hloop, searched_of_lt hloop.1 hloop.2, matched_slider h.bits stale (by omega), hk]
      by_cases hhit : vc.simpleHit (buf.take k) = true
      · rw [if_pos hhit, if_pos hhit]
      · rw [if_neg hhit, if_neg hhit]
        exact ih (i + 1) (k + 1) (by omega) (by omega) (by omega) (by omega)
    · rw [if_neg hloop, afterLoop_eq hsize hmax hloop]

variable (vc) in
def simpleCutter (h : vc.SimpleValid) : Cutter Byte :=
  .ofHits vc.simpleHit vc.minCsize vc.maxCsize h.positive h.ordered

theorem simpleMatch_eq_cut (h : vc.SimpleValid) (stale : ℕ → Byte) (buf : List Byte) :
    vc.simpleMatch stale buf = some ((((vc.simpleCutter h).cut buf).getD 0 : ℕ) : ℤ) := by
  have hpos := h.positive
  have hfits := h.fits
  have hordered := h.ordered
  show _ = some (((hitCut vc.simpleHit vc.minCsize vc.maxCsize buf).getD 0 : ℕ) : ℤ)
  unfold simpleMatch
  by_cases hshort : buf.length < vc.minCsize
  · rw [if_pos hshort, hitCut, if_pos hshort]
    rfl
  · have hbytes := bytesToLookAt_le h.bits
    rw [if_neg hshort, if_neg (by omega), if_neg (by omega), hitCut_getD (by omega)]
    exact look_eq h stale (buf.length + 1) (vc.minCsize - vc.bytesToLookAt) vc.minCsize (by omega)
      (by omega) hordered (by omega)

/-! ### var_chnk_get_next_chunk -/

variable (vc) in
/-- The random match is left out: its cuts depend on `random()`, not on the data. -/
def matchSize (stale : ℕ → Byte) (buf : List Byte) : Option ℤ :=
  match vc.matchMethod with
  | .rabin => vc.rabinMatch buf
  | .simple => vc.simpleMatch stale buf
  | .random => none

end VarChnkParams

def varGetNextChunk (vc : VarChnkParams) (stale : ℕ → Byte) (buffer : List Byte) (eof : Bool) :
    Option NextChunk :=
  (vc.matchSize stale buffer).map fun chnkSize =>
    if chnkSize < 0 then .error
    else if chnkSize = 0 then
      if eof && vc.tails then .chunk buffer.length else .more
    else .chunk chnkSize.toNat

/-! ### Methods as cutters -/

inductive ChnkMethod where
  | fixed (fc : FixedChnkParams)
  | var (vc : VarChnkParams)

namespace ChnkMethod

def getNextChunk (stale : ℕ → Byte) (buffer : List Byte) (eof : Bool) :
    ChnkMethod → Option NextChunk
  | .fixed fc => some (fixedGetNextChunk fc buffer eof)
  | .var vc => varGetNextChunk vc stale buffer eof

def tails : ChnkMethod → Bool
  | .fixed fc => fc.tails
  | .var vc => vc.tails

/-- The method behaves as the cutter `C`. -/
def CutsLike (m : ChnkMethod) (C : Cutter Byte) : Prop :=
  ∀ stale buffer eof, m.getNextChunk stale buffer eof = some (match C.cut buffer with
    | some n => .chunk n
    | none => if eof && m.tails then .chunk buffer.length else .more)

theorem cutsLike_fixed (fc : FixedChnkParams) (h : 0 < fc.csize) :
    (fixed fc).CutsLike (.ofHits (fun _ => true) fc.csize fc.csize h (Nat.le_refl _)) := by
  intro stale buffer eof
  show some (fixedGetNextChunk fc buffer eof)
    = some (match hitCut (fun _ => true) fc.csize fc.csize buffer with
      | some n => .chunk n
      | none => if eof && fc.tails then .chunk buffer.length else .more)
  unfold fixedGetNextChunk hitCut
  by_cases hshort : buffer.length < fc.csize
  · rw [if_pos hshort, if_pos hshort]
  · rw [if_neg hshort, if_neg hshort, firstHit_of_le (Nat.min_le_right ..)]
    simp only [if_pos (Nat.le_of_not_lt hshort)]

theorem cutsLike_var {vc : VarChnkParams} {C : Cutter Byte}
    (h : ∀ stale buf, vc.matchSize stale buf = some (((C.cut buf).getD 0 : ℕ) : ℤ)) :
    (var vc).CutsLike C := by
  intro stale buffer eof
  show varGetNextChunk vc stale buffer eof = _
  rw [varGetNextChunk, h, Option.map_some]
  cases hcut : C.cut buffer with
  | none => rfl
  | some n =>
    have hpos := (C.bounds hcut).1
    have hneg : ¬ (n : ℤ) < 0 := by omega
    have hzero : ¬ (n : ℤ) = 0 := by omega
    simp only [Option.getD_some, if_neg hneg, if_neg hzero, Int.toNat_natCast]

theorem cutsLike_rabin (vc : VarChnkParams) (hm : vc.matchMethod = .rabin) (h : vc.Valid) :
    (var vc).CutsLike (vc.rabinCutter h) := by
  apply cutsLike_var
  intro stale buf
  simp only [VarChnkParams.matchSize, hm]
  exact VarChnkParams.rabinMatch_eq_cut h buf

theorem cutsLike_simple (vc : VarChnkParams) (hm : vc.matchMethod = .simple)
    (h : vc.SimpleValid) : (var vc).CutsLike (vc.simpleCutter h) := by
  apply cutsLike_var
  intro stale buf
  simp only [VarChnkParams.matchSize, hm]
  exact VarChnkParams.simpleMatch_eq_cut h stale buf

/-- Parameters with which the method works. -/
def Valid : ChnkMethod → Prop
  | .fixed fc => 0 < fc.csize
  | .var vc =>
    match vc.matchMethod with
    | .rabin => vc.Valid
    | .simple => vc.SimpleValid
    | .random => False

def minSize : ChnkMethod → ℕ
  | .fixed fc => fc.csize
  | .var vc => vc.minCsize

def maxSize : ChnkMethod → ℕ
  | .fixed fc => fc.csize
  | .var vc => vc.maxCsize

theorem exists_cutter (m : ChnkMethod) (h : m.Valid) :
    ∃ C : Cutter Byte, m.CutsLike C ∧ C.max = m.maxSize ∧
      ∀ l n, C.cut l = some n → m.minSize ≤ n ∧ n ≤ m.maxSize := by
  cases m with
  | fixed fc => exact ⟨_, cutsLike_fixed fc h, rfl, fun _ _ => Cutter.ofHits_size⟩
  | var vc =>
    cases hm : vc.matchMethod with
    | rabin =>
      simp only [Valid, hm] at h
      exact ⟨_, cutsLike_rabin vc hm h, rfl, fun _ _ => Cutter.ofHits_size⟩
    | simple =>
      simp only [Valid, hm] at h
      exact ⟨_, cutsLike_simple vc hm h, rfl, fun _ _ => Cutter.ofHits_size⟩
    | random =>
      simp only [Valid, hm] at h

end ChnkMethod
end FreqAnalysis.FsHasher
