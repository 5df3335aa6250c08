import FreqAnalysis.Fingerprint
import Mathlib.Logic.Function.Basic
import Mathlib.Tactic.IntervalCases

/-!
# The container manager (container_manager.cc)

Fingerprints of unique chunks are collected in `tmp` and written to a numbered
container file when the next chunk would not fit. A file name is spelled digit
by digit; the number of the next container is kept in the file `MAINFEST`.

`pocessw` copies every fingerprint through a C string (`string temp(it->c_str())`)
and then reads `temp[0..5]`. Behind the terminating NUL of a shorter string
these reads are out of bounds; the bytes they return are the parameter `stale`,
indexed by the position of the fingerprint in `tmp` and the byte.
-/

namespace FreqAnalysis.Ddfs
open Base

def maxSize : ℤ := 4 * 1024 * 1024

/-- The members of `container_manager` that its functions read. -/
structure ContainerManager where
  nowId : ℤ
  nowSize : ℤ
  tmp : List Fp

/-- The container directory. The two lists record what happened to it: the
fingerprints passed to `insert`, and the `tmp` lists `pocessw` wrote with their
ids. No code reads them. -/
structure Volume where
  files : List Char → Option (List Char)
  inserted : List Fp
  written : List (ℤ × List Fp)

def mainfest : List Char := ['M', 'A', 'I', 'N', 'F', 'E', 'S', 'T']

def Volume.write (v : Volume) (name text : List Char) : Volume :=
  { v with files := Function.update v.files name (some text) }

namespace ContainerManager

/-- `init`. The assertion on `fscanf` fails on a `MAINFEST` without a number. -/
def init (v : Volume) : Option (ContainerManager × Volume) :=
  match v.files mainfest with
  | none => some (⟨0, 0, []⟩, v.write mainfest (decimal 0 ++ ['\n']))
  | some text => (scanDecimal text).map fun id => (⟨id, 0, []⟩, v)

/-- The loop `while (ee != 0)` of `pocessw`: decimal digits, lowest first. -/
def idDigits : ℕ → ℤ → List Char
  | 0, _ => []
  | fuel + 1, ee =>
    if ee ≠ 0 then Char.ofNat (ee.tmod 10 + 48).toNat :: idDigits fuel (ee.tdiv 10) else []

def fileName (ee : ℤ) : List Char :=
  (if ee = 0 then ['0'] else idDigits ee.natAbs ee).reverse

/-- `temp[k]` for `string temp(it->c_str())`. -/
def tempByte (stale : ℕ → Byte) (h : Fp) (k : ℕ) : Byte :=
  let temp := cStr h.val
  if k < temp.length then temp.getD k 0 else if k = temp.length then 0 else stale k

def tempBytes (stale : ℕ → Byte) (h : Fp) : List Byte :=
  (List.range fpSize).map (tempByte stale h)

def containerText (stale : ℕ → ℕ → Byte) (tmp : List Fp) : List Char :=
  putLines (tmp.mapIdx fun i h => bytesText (tempBytes (stale i) h))

def pocessw (stale : ℕ → ℕ → Byte) (cm : ContainerManager) (v : Volume) :
    Bool × ContainerManager × Volume :=
  if cm.tmp = [] then (false, cm, v)
  else
    let v := v.write (fileName cm.nowId) (containerText stale cm.tmp)
    let v := v.write mainfest (decimal (cm.nowId + 1) ++ ['\n'])
    (true, ⟨cm.nowId + 1, 0, []⟩, { v with written := v.written ++ [(cm.nowId, cm.tmp)] })

/-- `now_size` is an `int`; its sums wrap around. -/
def insert (stale : ℕ → ℕ → Byte) (cm : ContainerManager) (v : Volume) (str : Fp) (size : ℤ) :
    ContainerManager × Volume :=
  let (cm, v) := if cInt (cm.nowSize + size) > maxSize then (cm.pocessw stale v).2 else (cm, v)
  ({ cm with nowSize := cInt (cm.nowSize + size), tmp := cm.tmp ++ [str] },
    { v with inserted := v.inserted ++ [str] })

/-- `loadtonode`: the flag it returns and the vector `ans`. -/
def loadtonode (cm : ContainerManager) (v : Volume) (id : ℤ) : Bool × List Fp :=
  match v.files (decimal id) with
  | none => if id = cm.nowId then (true, cm.tmp) else (false, [])
  | some text => (true, (getLines text).map Fp.ofText)

/-! ### File names -/

theorem ofNat_digit (d : ℕ) (h : d < 10) : Char.ofNat (d + 48) = Nat.digitChar d := by
  interval_cases d <;> rfl

theorem idDigits_natCast (fuel n : ℕ) (h : n ≤ fuel) (hn : n ≠ 0) :
    (idDigits fuel (n : ℤ)).reverse = Nat.toDigits 10 n := by
  induction fuel generalizing n with
  | zero => omega
  | succ fuel ih =>
    have hne : (n : ℤ) ≠ 0 := by exact_mod_cast hn
    have hmod : ((n : ℤ).tmod 10 + 48).toNat = n % 10 + 48 := by
      rw [Int.tmod_eq_emod_of_nonneg (Int.natCast_nonneg n)]
      omega
    have hdiv : (n : ℤ).tdiv 10 = ((n / 10 : ℕ) : ℤ) := by
      rw [Int.tdiv_eq_ediv_of_nonneg (Int.natCast_nonneg n)]
      omega
    rw [idDigits, if_pos hne, hmod, hdiv, ofNat_digit _ (by omega), List.reverse_cons]
    by_cases hlt : n < 10
    · have h0 : n / 10 = 0 := by omega
      have hm : n % 10 = n := by omega
      have hnil : idDigits fuel ((0 : ℕ) : ℤ) = [] := by cases fuel <;> rfl
      rw [h0, hnil, hm, Nat.toDigits_of_lt_base hlt]
      rfl
    · rw [ih (n / 10) (by omega) (by omega), ← Nat.toDigits_of_base_le (by omega) (by omega)]

theorem fileName_natCast (n : ℕ) : fileName (n : ℤ) = decimal (n : ℤ) := by
  rw [decimal_natCast, fileName]
  by_cases hn : n = 0
  · subst hn
    rfl
  · have hne : (n : ℤ) ≠ 0 := by exact_mod_cast hn
    rw [if_neg hne, Int.natAbs_natCast, idDigits_natCast n n le_rfl hn]

theorem decimal_ne_mainfest (n : ℕ) : decimal (n : ℤ) ≠ mainfest := by
  intro h
  have hM : 'M' ∈ decimal (n : ℤ) := by
    rw [h]
    exact List.mem_cons_self ..
  have := isDigit_of_mem_decimal n 'M' hM
  simp [Char.isDigit] at this

/-! ### One fingerprint through a file -/

theorem tempByte_lt (stale : ℕ → Byte) (h : Fp) (k : ℕ) (hk : k < (cStr h.val).length) :
    tempByte stale h k = h.val.getD k 0 := by
  simp only [tempByte, hk, if_true]
  exact (getD_cStr h.val k hk).1

theorem tempByte_nul (stale : ℕ → Byte) (h : Fp) : tempByte stale h (cStr h.val).length = 0 := by
  simp [tempByte]

theorem tempByte_stale (stale : ℕ → Byte) (h : Fp) (k : ℕ) (hk : (cStr h.val).length < k) :
    tempByte stale h k = stale k := by
  have h1 : ¬ k < (cStr h.val).length := by omega
  have h2 : ¬ k = (cStr h.val).length := by omega
  simp [tempByte, h1, h2]

theorem tempBytes_length (stale : ℕ → Byte) (h : Fp) : (tempBytes stale h).length = fpSize := by
  simp [tempBytes]

theorem tempBytes_getD (stale : ℕ → Byte) (h : Fp) (k : ℕ) (hk : k < fpSize) :
    (tempBytes stale h).getD k 0 = tempByte stale h k := by
  simp [tempBytes, List.getD_eq_getElem?_getD, hk]

theorem cStr_tempBytes (stale : ℕ → Byte) (h : Fp) : cStr (tempBytes stale h) = cStr h.val := by
  have hlen := cStr_length_le h.val
  rw [h.property] at hlen
  obtain ⟨r, hr⟩ : ∃ r, fpSize = (cStr h.val).length + r := ⟨_, (Nat.add_sub_of_le hlen).symm⟩
  have hsplit : tempBytes stale h
      = cStr h.val ++ (List.range r).map (fun i => tempByte stale h ((cStr h.val).length + i)) := by
    have hrange : List.range fpSize = List.range ((cStr h.val).length + r) := congrArg _ hr
    rw [tempBytes, hrange, List.range_add, List.map_append, List.map_map]
    congr 1
    apply List.ext_getElem (by simp)
    intro i h1 h2
    have hi : i < (cStr h.val).length := h2
    simp only [List.getElem_map, List.getElem_range, tempByte, hi, if_true]
    exact List.getD_eq_getElem _ _ hi
  rw [hsplit, cStr_append_of_not_mem _ _ (zero_not_mem_cStr h.val)]
  cases r with
  | zero => simp [cStr]
  | succ r =>
    rw [List.range_succ_eq_map, List.map_cons, Nat.add_zero, tempByte_nul]
    simp [cStr]

/-- No byte of `h` lies behind a NUL: the first five bytes are not zero. -/
def NoInnerNul (h : Fp) : Prop := ∀ k < fpSize - 1, h.val.getD k 0 ≠ 0

/-- The file holds the fingerprint itself for every outcome of the
out-of-bounds reads exactly when there are none. -/
theorem tempBytes_eq_iff (h : Fp) :
    (∀ stale, tempBytes stale h = h.val) ↔ NoInnerNul h := by
  constructor
  · intro heq k hk h0
    have hle : (cStr h.val).length ≤ k := by
      by_contra hlt
      exact (getD_cStr h.val k (by omega)).2 h0
    have hlast : (cStr h.val).length < fpSize - 1 := by omega
    -- two stale bytes that differ cannot both be the last byte of `h`
    have hread : ∀ b : Byte, h.val.getD (fpSize - 1) 0 = b := by
      intro b
      have h1 := tempBytes_getD (fun _ => b) h (fpSize - 1) (by decide)
      rw [heq (fun _ => b), tempByte_stale _ h _ hlast] at h1
      exact h1
    have h01 := (hread 0).symm.trans (hread 1)
    exact absurd h01 (by decide)
  · intro hno stale
    have hge : fpSize - 1 ≤ (cStr h.val).length := by
      by_contra hlt
      exact hno (cStr h.val).length (by omega) (getD_cStr_length h.val)
    apply List.ext_getElem (by rw [tempBytes_length, h.property])
    intro k h1 h2
    have hk : k < fpSize := by simpa [tempBytes_length] using h1
    rw [← List.getD_eq_getElem _ 0 h1, ← List.getD_eq_getElem _ 0 h2, tempBytes_getD _ _ _ hk]
    rcases Nat.lt_or_ge k (cStr h.val).length with hlt | hgt
    · exact tempByte_lt stale h k hlt
    · have hkeq : k = (cStr h.val).length := by omega
      rw [hkeq, tempByte_nul, getD_cStr_length]

/-! ### A container through a file -/

theorem getLines_container (stale : ℕ → ℕ → Byte) (tmp : List Fp) :
    getLines (containerText stale tmp)
      = tmp.mapIdx fun i h => bytesText (tempBytes (stale i) h) := by
  apply getLines_putLines _
  intro line hline
  obtain ⟨i, _, rfl⟩ := List.mem_mapIdx.mp hline
  exact newline_not_mem_bytesText _

/-- A container without inner NULs is in its file as it is. -/
theorem containerText_of_noInnerNul (stale : ℕ → ℕ → Byte) {tmp : List Fp}
    (h : ∀ x ∈ tmp, NoInnerNul x) :
    containerText stale tmp = putLines (tmp.map fun x => bytesText x.val) := by
  rw [containerText]
  congr 1
  apply List.ext_getElem (by simp)
  intro i h1 h2
  have hi : i < tmp.length := by simpa using h2
  have hx := h tmp[i] (List.getElem_mem _)
  simp only [List.getElem_mapIdx, List.getElem_map, (tempBytes_eq_iff tmp[i]).mpr hx]

theorem ofText_tempBytes (stale : ℕ → Byte) (h : Fp) :
    (Fp.ofText (bytesText (tempBytes stale h))).val = tempBytes stale h := by
  have ht := textBytes_bytesText (tempBytes stale h) []
  rw [List.append_nil, tempBytes_length] at ht
  exact ht

def reloaded (stale : ℕ → ℕ → Byte) (tmp : List Fp) : List Fp :=
  tmp.mapIdx fun i h => Fp.ofText (bytesText (tempBytes (stale i) h))

theorem loadtonode_of_text (stale : ℕ → ℕ → Byte) (cm : ContainerManager) (v : Volume) (id : ℤ)
    (tmp : List Fp) (hf : v.files (decimal id) = some (containerText stale tmp)) :
    cm.loadtonode v id = (true, reloaded stale tmp) := by
  simp only [loadtonode, hf, getLines_container, reloaded, Prod.mk.injEq, true_and]
  exact List.ext_getElem (by simp) (by simp)

theorem reloaded_eq_iff (tmp : List Fp) :
    (∀ stale, reloaded stale tmp = tmp) ↔ ∀ h ∈ tmp, NoInnerNul h := by
  constructor
  · intro heq h hmem
    obtain ⟨i, hi, rfl⟩ := List.getElem_of_mem hmem
    refine (tempBytes_eq_iff tmp[i]).mp ?_
    intro stale
    have hat : (reloaded (fun _ => stale) tmp)[i]? = some tmp[i] := by
      rw [heq (fun _ => stale)]
      exact List.getElem?_eq_getElem hi
    simp only [reloaded, List.getElem?_mapIdx, List.getElem?_eq_getElem hi, Option.map_some,
      Option.some.injEq] at hat
    have hval := congrArg Subtype.val hat
    rwa [ofText_tempBytes] at hval
  · intro hno stale
    apply List.ext_getElem (by simp [reloaded])
    intro i h1 h2
    simp only [reloaded, List.getElem_mapIdx]
    apply Subtype.ext
    rw [ofText_tempBytes]
    exact (tempBytes_eq_iff tmp[i]).mpr (hno _ (List.getElem_mem h2)) (stale i)

theorem pocessw_of_ne_nil (stale : ℕ → ℕ → Byte) (cm : ContainerManager) (v : Volume)
    (h : cm.tmp ≠ []) :
    cm.pocessw stale v = (true, ⟨cm.nowId + 1, 0, []⟩,
      { files := Function.update (Function.update v.files (fileName cm.nowId)
          (some (containerText stale cm.tmp)))
          mainfest (some (decimal (cm.nowId + 1) ++ ['\n']))
        inserted := v.inserted
        written := v.written ++ [(cm.nowId, cm.tmp)] }) := by
  simp [pocessw, h, Volume.write]

theorem loadtonode_pocessw (stale : ℕ → ℕ → Byte) (n : ℕ) (size : ℤ) (tmp : List Fp) (v : Volume)
    (h : tmp ≠ []) :
    let r := pocessw stale ⟨n, size, tmp⟩ v
    r.2.1.loadtonode r.2.2 n = (true, reloaded stale tmp) := by
  rw [pocessw_of_ne_nil stale ⟨n, size, tmp⟩ v h]
  apply loadtonode_of_text stale _ _ _ tmp
  simp only [fileName_natCast]
  rw [Function.update_of_ne (decimal_ne_mainfest n), Function.update_self]

/-- Container `n` survives a flush: the file `pocessw` writes loads as the list
`tmp` it was written from, which is what the load before the flush returned. -/
def RoundTrips (n : ℕ) (tmp : List Fp) : Prop :=
  ∀ (stale : ℕ → ℕ → Byte) (size : ℤ) (v : Volume),
    let cm : ContainerManager := ⟨n, size, tmp⟩
    let r := cm.pocessw stale v
    r.1 = true → r.2.1.loadtonode r.2.2 n = (true, tmp) ∧
      (v.files (decimal n) = none → r.2.1.loadtonode r.2.2 n = cm.loadtonode v n)

/-- A container survives every flush exactly when none of its fingerprints has
a zero byte among the first five. -/
theorem roundTrips_iff (n : ℕ) (tmp : List Fp) :
    RoundTrips n tmp ↔ ∀ h ∈ tmp, NoInnerNul h := by
  by_cases hne : tmp = []
  · -- nothing is written
    subst hne
    refine ⟨fun _ h hh => absurd hh List.not_mem_nil, ?_⟩
    intro _ stale size v cm r hr
    exact Bool.noConfusion hr
  rw [← reloaded_eq_iff]
  constructor
  · intro hrt stale
    have hw := hrt stale 0 ⟨fun _ => none, [], []⟩
      (by rw [pocessw_of_ne_nil stale ⟨n, 0, tmp⟩ _ hne])
    have hload := hw.1
    rw [loadtonode_pocessw stale n 0 tmp _ hne] at hload
    exact (Prod.mk.inj hload).2
  · intro heq stale size v cm r _
    have hload : r.2.1.loadtonode r.2.2 n = (true, tmp) := by
      have := loadtonode_pocessw stale n size tmp v hne
      rwa [heq stale] at this
    refine ⟨hload, ?_⟩
    intro hfree
    rw [hload]
    simp [loadtonode, hfree, cm]

def innerNul : ContainerManager := ⟨0, 8192, [⟨[0, 1, 2, 3, 4, 5], rfl⟩]⟩

def emptyVolume : Volume := ⟨fun _ => none, [], []⟩

/-- When the bytes behind the terminator read as zero, the flush loses all but
the first byte of that fingerprint. -/
theorem roundTrip_innerNul :
    innerNul.loadtonode emptyVolume 0 = (true, [⟨[0, 1, 2, 3, 4, 5], rfl⟩]) ∧
    (innerNul.pocessw (fun _ _ => 0) emptyVolume).1 = true ∧
    (innerNul.pocessw (fun _ _ => 0) emptyVolume).2.1.loadtonode
        (innerNul.pocessw (fun _ _ => 0) emptyVolume).2.2 0
      = (true, [⟨[0, 0, 0, 0, 0, 0], rfl⟩]) := by
  decide +kernel

end ContainerManager
end FreqAnalysis.Ddfs
