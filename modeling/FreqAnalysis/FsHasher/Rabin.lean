import FreqAnalysis.Base.Bytes
import FreqAnalysis.Base.Chunker
import FreqAnalysis.Base.Rolling
import Mathlib.Data.ZMod.Basic

/-!
# Content-defined chunk boundaries (fs-hasher.c)

`var_chnk_rabin_match` slides a window over the data and ends the chunk where the low bits
of the fingerprint of the window have the wanted pattern. The fingerprint is rolled from
one position to the next in a 64-bit word: the subtraction of the byte that leaves wraps
around, and the multiplication after it overflows. It is still the fingerprint of the
window modulo `M`, so the match function is the search for the first hit.

A result is `none` where the code reads behind the buffer or fails its assertion.
-/

namespace FreqAnalysis.FsHasher
open Base

def prime : UInt64 := 1048583

/-- `M`. -/
def modulus : UInt64 := (1 : UInt64) <<< 30

def word (b : Byte) : UInt64 := UInt64.ofNat b.val

def pwrmod (a : UInt64) (p : ℕ) (m : UInt64) : UInt64 :=
  (List.range p).foldl (fun result _ => ((result % m) * (a % m)) % m) 1

inductive MatchMethod where
  | rabin
  | simple
  | random
  deriving DecidableEq

/-- The members of `var_chnk_params` that do not follow from the others. -/
structure VarChnkParams where
  winSize : ℕ
  matchBits : ℕ
  pattern : ℤ
  minCsize : ℕ
  maxCsize : ℕ
  matchMethod : MatchMethod
  tails : Bool

namespace VarChnkParams

variable (vc : VarChnkParams)

/-- `(1 << match_bits) - 1` is an `int` and keeps its sign on the way to the 64-bit mask. A
shift by 32 bits or more is undefined; here its count is reduced as on x86. -/
def mask : UInt64 := UInt64.ofBitVec ((1#32 <<< (vc.matchBits % 32) - 1#32).signExtend 64)

def matched (x : UInt64) : Bool := (x &&& vc.mask) = (UInt64.ofInt vc.pattern &&& vc.mask)

/-- `var_chnk_compute_table`. -/
def polynomialTables (t : Byte) : UInt64 :=
  (word t * pwrmod prime (vc.winSize - 1) modulus) % modulus

/-- The fingerprint of the window at `start`. -/
def startFprt (buf : List Byte) (start : ℕ) : Option UInt64 :=
  (List.range vc.winSize).foldlM
    (fun fprt j => (buf[start + j]?).map fun b => (prime * fprt + word b) % modulus) 0

/-- What follows the loops of the match functions, with a chunk of `k` bytes not tried. -/
def afterLoop (size k : ℕ) : Option ℤ :=
  if k = size + 1 then some 0
  else if k = vc.maxCsize then some vc.maxCsize
  else none

/-- The loop that slides the window. -/
def slide (buf : List Byte) : ℕ → ℕ → UInt64 → Option ℤ
  | 0, _, _ => none
  | fuel + 1, i, fprt =>
    if i + vc.winSize ≤ buf.length ∧ i + vc.winSize < vc.maxCsize then do
      let out ← buf[i - 1]?
      let inn ← buf[i + vc.winSize - 1]?
      let fprt := fprt - vc.polynomialTables out
      let fprt := fprt * prime
      let fprt := (fprt + word inn) % modulus
      if vc.matched fprt then some ((i + vc.winSize : ℕ) : ℤ) else slide buf fuel (i + 1) fprt
    else vc.afterLoop buf.length (i + vc.winSize)

def rabinMatch (buf : List Byte) : Option ℤ :=
  if buf.length < vc.minCsize then some 0
  else do
    let start := if vc.minCsize > vc.winSize then vc.minCsize - vc.winSize else 0
    let fprt ← vc.startFprt buf start
    if vc.matched fprt then some ((start + vc.winSize : ℕ) : ℤ)
    else vc.slide buf (buf.length + 1) (start + 1) fprt

end VarChnkParams

/-! ### Words modulo M -/

def residue (x : UInt64) : ZMod (2 ^ 30) := (x.toNat : ZMod (2 ^ 30))

theorem natCast_mod_word (n : ℕ) : ((n % 2 ^ 64 : ℕ) : ZMod (2 ^ 30)) = (n : ZMod (2 ^ 30)) := by
  rw [ZMod.natCast_eq_natCast_iff']
  exact Nat.mod_mod_of_dvd n (pow_dvd_pow 2 (by decide))

theorem residue_add (x y : UInt64) : residue (x + y) = residue x + residue y := by
  rw [residue, UInt64.toNat_add, natCast_mod_word, Nat.cast_add]
  rfl

theorem residue_mul (x y : UInt64) : residue (x * y) = residue x * residue y := by
  rw [residue, UInt64.toNat_mul, natCast_mod_word, Nat.cast_mul]
  rfl

/-- The subtraction may wrap around. -/
theorem residue_sub (x y : UInt64) : residue (x - y) = residue x - residue y := by
  have hsum := residue_add (x - y) y
  rw [UInt64.sub_add_cancel] at hsum
  rw [hsum, add_sub_cancel_right]

theorem toNat_mod_modulus (x : UInt64) : (x % modulus).toNat = x.toNat % 2 ^ 30 := by
  rw [UInt64.toNat_mod, show modulus.toNat = 2 ^ 30 by decide]

theorem residue_mod (x : UInt64) : residue (x % modulus) = residue x := by
  rw [residue, toNat_mod_modulus, ZMod.natCast_mod]
  rfl

theorem mod_eq_of_residue_eq {x y : UInt64} (h : residue x = residue y) :
    x % modulus = y % modulus := by
  apply UInt64.toNat_inj.mp
  rw [toNat_mod_modulus, toNat_mod_modulus]
  exact (ZMod.natCast_eq_natCast_iff' _ _ _).mp h

theorem mod_mod_modulus (x : UInt64) : x % modulus % modulus = x % modulus := by
  apply mod_eq_of_residue_eq
  exact residue_mod x

theorem residue_pwrmod (a : UInt64) (p : ℕ) : residue (pwrmod a p modulus) = residue a ^ p := by
  induction p with
  | zero => rw [pow_zero]; rfl
  | succ p ih =>
    rw [pwrmod, List.range_succ, List.foldl_append]
    simp only [List.foldl_cons, List.foldl_nil]
    rw [residue_mod, residue_mul, residue_mod, residue_mod, ← pwrmod, ih]
    exact (pow_succ _ _).symm

/-! ### The fingerprint of a window -/

def fingerprint (ws : List Byte) : UInt64 :=
  ws.foldl (fun fprt b => (prime * fprt + word b) % modulus) 0

theorem fingerprint_concat (ws : List Byte) (b : Byte) :
    fingerprint (ws ++ [b]) = (prime * fingerprint ws + word b) % modulus := by
  rw [fingerprint, List.foldl_append]
  rfl

theorem residue_fingerprint (ws : List Byte) :
    residue (fingerprint ws) = Rolling.poly (residue prime) (ws.map fun b => residue (word b)) := by
  apply Rolling.foldl_represents (residue prime) residue (fun b => residue (word b))
  · intro f b
    rw [residue_mod, residue_add, residue_mul]
  · rfl

theorem fingerprint_mod (ws : List Byte) : fingerprint ws % modulus = fingerprint ws := by
  induction ws using List.reverseRecOn with
  | nil => rfl
  | append_singleton ws b _ =>
    rw [fingerprint_concat]
    exact mod_mod_modulus _

/-- One turn of the loop: the window loses `a` and gains `b`. -/
theorem fingerprint_roll (vc : VarChnkParams) (a : Byte) (ws : List Byte) (b : Byte)
    (hlen : ws.length + 1 = vc.winSize) :
    ((fingerprint (a :: ws) - vc.polynomialTables a) * prime + word b) % modulus
      = fingerprint (ws ++ [b]) := by
  rw [← fingerprint_mod (ws ++ [b])]
  apply mod_eq_of_residue_eq
  have hw : vc.winSize - 1 = ws.length := by omega
  rw [residue_add, residue_mul, residue_sub, VarChnkParams.polynomialTables, residue_mod,
    residue_mul, residue_pwrmod, hw, residue_fingerprint, residue_fingerprint, List.map_append,
    List.map_cons, List.map_singleton,
    Rolling.poly_roll (residue prime) (residue (word a)), List.length_map]

/-! ### The match function is a search -/

def lastBytes (n : ℕ) (l : List Byte) : List Byte := l.drop (l.length - n)

theorem lastBytes_take {n k : ℕ} {buf : List Byte} (hk : k ≤ buf.length) :
    lastBytes n (buf.take k) = (buf.take k).drop (k - n) := by
  rw [lastBytes, List.length_take, Nat.min_eq_left hk]

theorem lastBytes_roll {n k : ℕ} (buf : List Byte) (hn : 0 < n) (hnk : n ≤ k)
    (hk : k < buf.length) :
    ∃ ws, ws.length + 1 = n ∧ lastBytes n (buf.take k) = buf[k - n] :: ws ∧
      lastBytes n (buf.take (k + 1)) = ws ++ [buf[k]] := by
  have hlen : (buf.take k).length = k := by
    rw [List.length_take]
    omega
  have hstart : k - n < (buf.take k).length := by omega
  refine ⟨(buf.take k).drop (k - n + 1), ?_, ?_, ?_⟩
  · rw [List.length_drop, hlen]
    omega
  · rw [lastBytes_take (by omega), List.drop_eq_getElem_cons hstart, List.getElem_take]
  · have hnext : k + 1 - n = k - n + 1 := by omega
    rw [lastBytes_take (by omega), List.take_succ_eq_append_getElem hk, hnext,
      List.drop_append_of_le_length (by omega)]

namespace VarChnkParams

variable {vc : VarChnkParams}

/-- Parameters with which the Rabin match works: the mask is defined, the window fits into
the smallest chunk, and chunks may differ in size. -/
structure Valid (vc : VarChnkParams) : Prop where
  bits : vc.matchBits < 32
  window : 0 < vc.winSize
  fits : vc.winSize ≤ vc.minCsize
  varies : vc.minCsize < vc.maxCsize

variable (vc) in
def rabinHit (pre : List Byte) : Bool := vc.matched (fingerprint (lastBytes vc.winSize pre))

theorem matched_fingerprint (pre : List Byte) :
    vc.matched (fingerprint (lastBytes vc.winSize pre)) = vc.rabinHit pre := rfl

theorem startFprt_eq {buf : List Byte} {start : ℕ} (h : start + vc.winSize ≤ buf.length) :
    vc.startFprt buf start = some (fingerprint ((buf.drop start).take vc.winSize)) := by
  have hloop : ∀ n, start + n ≤ buf.length →
      (List.range n).foldlM
        (fun fprt j => (buf[start + j]?).map fun b => (prime * fprt + word b) % modulus) 0
        = some (fingerprint ((buf.drop start).take n)) := by
    intro n
    induction n with
    | zero => exact fun _ => rfl
    | succ n ih =>
      intro hn
      have hlt : n < (buf.drop start).length := by
        rw [List.length_drop]
        omega
      have hget : buf[start + n]? = some (buf.drop start)[n] := by
        rw [List.getElem_drop, List.getElem?_eq_getElem (by omega)]
      rw [List.range_succ, List.foldlM_append, ih (by omega), List.take_succ_eq_append_getElem hlt,
        fingerprint_concat]
      simp only [Option.bind_eq_bind, Option.bind_some, List.foldlM_cons, List.foldlM_nil, hget,
        Option.map_some]
      rfl
  exact hloop vc.winSize h

variable (vc) in
/-- The length of the first chunk as the match functions report it. -/
def searched (hit : List Byte → Bool) (buf : List Byte) (k : ℕ) : ℤ :=
  match firstHit (fun n => hit (buf.take n)) k (min (buf.length + 1) vc.maxCsize) with
  | some n => (n : ℤ)
  | none => if vc.maxCsize ≤ buf.length then (vc.maxCsize : ℤ) else 0

theorem searched_of_lt {hit : List Byte → Bool} {buf : List Byte} {k : ℕ} (hsize : k ≤ buf.length)
    (hmax : k < vc.maxCsize) :
    vc.searched hit buf k = if hit (buf.take k) then (k : ℤ) else vc.searched hit buf (k + 1) := by
  rw [searched, firstHit_of_lt (by omega)]
  cases hit (buf.take k) with
  | true => rfl
  | false => rfl

theorem afterLoop_eq {hit : List Byte → Bool} {buf : List Byte} {k : ℕ}
    (hsize : k ≤ buf.length + 1) (hmax : k ≤ vc.maxCsize)
    (hend : ¬ (k ≤ buf.length ∧ k < vc.maxCsize)) :
    vc.afterLoop buf.length k = some (vc.searched hit buf k) := by
  rw [afterLoop, searched, firstHit_of_le (by omega)]
  by_cases hlast : k = buf.length + 1
  · rw [if_pos hlast, if_neg (by omega)]
  · rw [if_neg hlast, if_pos (by omega), if_pos (by omega)]

theorem hitCut_getD {hit : List Byte → Bool} {buf : List Byte} (hlong : vc.minCsize ≤ buf.length) :
    (((hitCut hit vc.minCsize vc.maxCsize buf).getD 0 : ℕ) : ℤ)
      = vc.searched hit buf vc.minCsize := by
  rw [hitCut, if_neg (by omega), searched]
  cases firstHit (fun n => hit (buf.take n)) vc.minCsize (min (buf.length + 1) vc.maxCsize) with
  | some n => rfl
  | none =>
    by_cases hfull : vc.maxCsize ≤ buf.length
    · simp only [if_pos hfull, Option.getD_some]
    · simp only [if_neg hfull, Option.getD_none, Nat.cast_zero]

theorem slide_step {buf : List Byte} {fuel i : ℕ} {fprt : UInt64} {out inn : Byte}
    (hloop : i + vc.winSize ≤ buf.length ∧ i + vc.winSize < vc.maxCsize)
    (hout : buf[i - 1]? = some out) (hin : buf[i + vc.winSize - 1]? = some inn) :
    vc.slide buf (fuel + 1) i fprt
      = if vc.matched (((fprt - vc.polynomialTables out) * prime + word inn) % modulus)
        then some ((i + vc.winSize : ℕ) : ℤ)
        else vc.slide buf fuel (i + 1)
          (((fprt - vc.polynomialTables out) * prime + word inn) % modulus) := by
  rw [slide, if_pos hloop, hout, hin, Option.bind_eq_bind, Option.bind_some, Option.bind_some]

/-- The loop from the window that ends at `k - 1` on. -/
theorem slide_eq (hwin : 0 < vc.winSize) {buf : List Byte} (fuel i k : ℕ) (hk : i + vc.winSize = k)
    (hi : 0 < i) (hsize : k ≤ buf.length + 1) (hmax : k ≤ vc.maxCsize)
    (hfuel : buf.length + 2 ≤ fuel + k) :
    vc.slide buf fuel i (fingerprint (lastBytes vc.winSize (buf.take (k - 1))))
      = some (vc.searched vc.rabinHit buf k) := by
  induction fuel generalizing i k with
  | zero => omega
  | succ fuel ih =>
    subst hk
    by_cases hloop : i + vc.winSize ≤ buf.length ∧ i + vc.winSize < vc.maxCsize
    · obtain ⟨ws, hlen, hold, hnew⟩ :=
        lastBytes_roll buf hwin (show vc.winSize ≤ i + vc.winSize - 1 by omega) (by omega)
      have hout : buf[i - 1]? = some buf[i + vc.winSize - 1 - vc.winSize] := by
        rw [List.getElem?_eq_getElem (by omega)]
        congr 2
        omega
      have hk : i + vc.winSize - 1 + 1 = i + vc.winSize := by omega
      rw [hk] at hnew
      rw [slide_step hloop hout (List.getElem?_eq_getElem (by omega)), hold,
        fingerprint_roll vc _ ws _ hlen, ← hnew, matched_fingerprint,
        searched_of_lt hloop.1 hloop.2]
      by_cases hhit : vc.rabinHit (buf.take (i + vc.winSize)) = true
      · rw [if_pos hhit, if_pos hhit]
      · rw [if_neg hhit, if_neg hhit]
        exact ih (i + 1) (i + vc.winSize + 1) (by omega) (by omega) (by omega) (by omega)
          (by omega)
    · rw [slide, if_neg hloop, afterLoop_eq hsize hmax hloop]

theorem rabinMatch_of_le {buf : List Byte} (hwin : 0 < vc.winSize)
    (hfits : vc.winSize ≤ vc.minCsize) (hlong : vc.minCsize ≤ buf.length) :
    vc.rabinMatch buf = if vc.rabinHit (buf.take vc.minCsize) then some (vc.minCsize : ℤ)
      else vc.slide buf (buf.length + 1) (vc.minCsize - vc.winSize + 1)
        (fingerprint (lastBytes vc.winSize (buf.take vc.minCsize))) := by
  have hstart : (if vc.minCsize > vc.winSize then vc.minCsize - vc.winSize else 0)
      = vc.minCsize - vc.winSize := by
    split
    · rfl
    · omega
  have hwindow : lastBytes vc.winSize (buf.take vc.minCsize)
      = (buf.drop (vc.minCsize - vc.winSize)).take vc.winSize := by
    rw [lastBytes_take hlong, List.drop_take]
    congr 1
    omega
  rw [rabinMatch, if_neg (by omega), hstart]
  simp only [startFprt_eq (show vc.minCsize - vc.winSize + vc.winSize ≤ buf.length by omega),
    ← hwindow, Option.bind_eq_bind, Option.bind_some]
  rw [matched_fingerprint, Nat.sub_add_cancel hfits]

variable (vc) in
/-- The cutter of the valid sizes. -/
def rabinCutter (h : vc.Valid) : Cutter Byte :=
  .ofHits vc.rabinHit vc.minCsize vc.maxCsize (Nat.lt_of_lt_of_le h.window h.fits)
    (Nat.le_of_lt h.varies)

theorem rabinMatch_eq_cut (h : vc.Valid) (buf : List Byte) :
    vc.rabinMatch buf = some ((((vc.rabinCutter h).cut buf).getD 0 : ℕ) : ℤ) := by
  have hfits := h.fits
  have hvaries := h.varies
  show _ = some (((hitCut vc.rabinHit vc.minCsize vc.maxCsize buf).getD 0 : ℕ) : ℤ)
  by_cases hshort : buf.length < vc.minCsize
  · rw [rabinMatch, if_pos hshort, hitCut, if_pos hshort]
    rfl
  · rw [rabinMatch_of_le h.window hfits (by omega), hitCut_getD (by omega),
      searched_of_lt (by omega) hvaries]
    by_cases hhit : vc.rabinHit (buf.take vc.minCsize) = true
    · rw [if_pos hhit, if_pos hhit]
    · rw [if_neg hhit, if_neg hhit]
      exact slide_eq h.window (buf.length + 1) (vc.minCsize - vc.winSize + 1) (vc.minCsize + 1)
        (by omega) (by omega) (by omega) (by omega) (by omega)

/-- `var_chnk_rabin_match` returns the first length, from the smallest chunk size on, at
which the fingerprint of the last window matches, the largest chunk size if there is none
below it, and 0 if the data end before either. -/
theorem rabin_match_first_hit (h : vc.Valid) (buf : List Byte) :
    ∃ n : ℕ, vc.rabinMatch buf = some (n : ℤ) ∧
      (n = 0 ∧ buf.length < vc.maxCsize ∧
          (∀ k, vc.minCsize ≤ k → k ≤ buf.length → vc.rabinHit (buf.take k) = false) ∨
        vc.minCsize ≤ n ∧ n ≤ vc.maxCsize ∧ n ≤ buf.length ∧
          (n < vc.maxCsize → vc.rabinHit (buf.take n) = true) ∧
          ∀ k, vc.minCsize ≤ k → k < n → vc.rabinHit (buf.take k) = false) := by
  have hle := Nat.le_of_lt h.varies
  refine ⟨_, rabinMatch_eq_cut h buf, ?_⟩
  cases hcut : (vc.rabinCutter h).cut buf with
  | some n => exact Or.inr ((hitCut_eq_some_iff hle).mp hcut)
  | none =>
    have hshort : buf.length < vc.maxCsize :=
      Nat.lt_of_not_le fun hfull => (vc.rabinCutter h).enough hfull hcut
    refine Or.inl ⟨rfl, hshort, ?_⟩
    -- a hit would have ended the chunk
    have hnone : firstHit (fun k => vc.rabinHit (buf.take k)) vc.minCsize (buf.length + 1) = none := by
      by_contra hsome
      obtain ⟨n, hn⟩ := Option.ne_none_iff_exists'.mp hsome
      obtain ⟨h1, h2, h3, h4⟩ := firstHit_eq_some_iff.mp hn
      have hend := (hitCut_eq_some_iff (l := buf) hle).mpr
        ⟨h1, by omega, by omega, fun _ => h3, h4⟩
      exact Option.some_ne_none n (hend.symm.trans hcut)
    intro k hk hkn
    exact firstHit_eq_none_iff.mp hnone k hk (by omega)

def smallParams : VarChnkParams := ⟨2, 2, 1, 3, 6, .rabin, true⟩

theorem smallParams_valid : smallParams.Valid := ⟨by decide, by decide, by decide, by decide⟩

theorem rabin_match_first_hit_small :
    smallParams.rabinMatch [9, 9, 9, 1, 2, 9] = some 5 ∧
      ∀ k, 3 ≤ k → k < 5 → smallParams.rabinHit ([9, 9, 9, 1, 2, 9].take k) = false := by
  obtain ⟨n, hn, hcases⟩ := rabin_match_first_hit smallParams_valid [9, 9, 9, 1, 2, 9]
  have hfive : smallParams.rabinMatch [9, 9, 9, 1, 2, 9] = some 5 := by decide +kernel
  have hn5 : n = 5 := by
    have heq : (5 : ℤ) = n := Option.some.inj (hfive.symm.trans hn)
    omega
  subst hn5
  rcases hcases with ⟨h0, -⟩ | ⟨-, -, -, -, hfirst⟩
  · omega
  · exact ⟨hfive, hfirst⟩

/-- The assertion behind the loop fails when all chunks are to have one size, on every
longer buffer whose first window does not match, and in no other case. -/
theorem rabin_match_fails_iff (hbits : vc.matchBits < 32) (hwin : 0 < vc.winSize)
    (hfits : vc.winSize ≤ vc.minCsize) (hordered : vc.minCsize ≤ vc.maxCsize) (buf : List Byte) :
    vc.rabinMatch buf = none ↔
      vc.minCsize = vc.maxCsize ∧ vc.maxCsize < buf.length ∧
        vc.rabinHit (buf.take vc.minCsize) = false := by
  rcases Nat.lt_or_eq_of_le hordered with hvaries | hsame
  · rw [rabinMatch_eq_cut ⟨hbits, hwin, hfits, hvaries⟩]
    constructor
    · intro h
      cases h
    · rintro ⟨hsame, -⟩
      omega
  by_cases hshort : buf.length < vc.minCsize
  · rw [rabinMatch, if_pos hshort]
    constructor
    · intro h
      cases h
    · rintro ⟨-, hlong, -⟩
      omega
  rw [rabinMatch_of_le hwin hfits (by omega)]
  by_cases hhit : vc.rabinHit (buf.take vc.minCsize) = true
  · simp [hhit]
  · have hk : vc.minCsize - vc.winSize + 1 + vc.winSize = vc.maxCsize + 1 := by omega
    rw [if_neg hhit, slide, hk, if_neg (by omega), afterLoop]
    by_cases hfull : buf.length = vc.maxCsize
    · rw [if_pos (by omega)]
      constructor
      · intro h
        cases h
      · rintro ⟨-, hlong, -⟩
        omega
    · rw [if_neg (by omega), if_neg (by omega)]
      exact ⟨fun _ => ⟨hsame, by omega, by simpa using hhit⟩, fun _ => rfl⟩

theorem rabin_match_fails_iff_same :
    VarChnkParams.rabinMatch ⟨2, 2, 1, 3, 3, .rabin, true⟩ [9, 9, 9, 9] = none :=
  (@rabin_match_fails_iff ⟨2, 2, 1, 3, 3, .rabin, true⟩ (by decide) (by decide) (by decide)
    (by decide) [9, 9, 9, 9]).mpr (by decide +kernel)

end VarChnkParams
end FreqAnalysis.FsHasher
