import FreqAnalysis.Base.Text

/-!
# Fingerprints and chunks

Every program of the toolkit works on 6-byte chunk fingerprints (`FP_SIZE`),
compared as raw bytes: `memcmp`, and the key order of LevelDB, is the
lexicographic order of unsigned bytes. A trace line carries a fingerprint and
the chunk size.
-/

namespace FreqAnalysis
open Base

def fpSize : ℕ := 6

/-- A chunk fingerprint, `char hash[FP_SIZE]`. -/
abbrev Fp := {l : List Byte // l.length = fpSize}

def Fp.ofBytes (l : List Byte) : Fp := ⟨resize fpSize l, resize_length fpSize l⟩

/-- The fingerprint of six equal bytes. -/
def Fp.filled (b : Byte) : Fp := ⟨List.replicate fpSize b, List.length_replicate⟩

structure Chunk where
  hash : Fp
  size : ℤ
  deriving DecidableEq

theorem Fp.ofBytes_val (h : Fp) : Fp.ofBytes h.val = h := by
  apply Subtype.ext
  simp [Fp.ofBytes, resize, h.property]

/-- `strncmp(a, b, FP_SIZE) == 0`: both hold the same C string. -/
def sameCStr (a b : Fp) : Bool := strncmp fpSize a.val b.val = 0

theorem sameCStr_iff (a b : Fp) : sameCStr a b = true ↔ cStr a.val = cStr b.val := by
  simp only [sameCStr, decide_eq_true_eq]
  exact strncmp_eq_zero_iff fpSize a.val b.val a.property b.property

/-! ### Fingerprints in files -/

def Fp.text (h : Fp) : List Char := bytesText h.val

def Fp.ofText (line : List Char) : Fp := ⟨textBytes fpSize line, textBytes_length fpSize line⟩

theorem Fp.ofText_text (h : Fp) : Fp.ofText h.text = h := by
  apply Subtype.ext
  have ht := textBytes_bytesText h.val []
  rw [List.append_nil, h.property] at ht
  exact ht

theorem Fp.getLines_text (hs : List Fp) :
    getLines (putLines (hs.map Fp.text)) = hs.map Fp.text := by
  apply getLines_putLines _
  intro line hline
  obtain ⟨h, _, rfl⟩ := List.mem_map.mp hline
  exact newline_not_mem_bytesText h.val

end FreqAnalysis
