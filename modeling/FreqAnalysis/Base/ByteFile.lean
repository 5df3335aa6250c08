import FreqAnalysis.Base.Bytes
import Mathlib.Algebra.Order.Group.Nat
import Mathlib.Algebra.BigOperators.Group.List.Basic

/-!
# Files of packed words

A packed C structure is a sequence of little-endian words of given widths. A file has a
position; a write overwrites what is there and extends the file, a read takes the bytes
from the position on.
-/

namespace FreqAnalysis.Base

/-! ### Packed words -/

/-- The words as pairs of a width and a value. -/
def packWords (ws : List (ℕ × ℕ)) : List Byte := ws.flatMap fun w => leBytes w.1 w.2

def unpackWords : List ℕ → List Byte → List ℕ
  | [], _ => []
  | w :: ws, s => leVal (s.take w) :: unpackWords ws (s.drop w)

theorem length_packWords (ws : List (ℕ × ℕ)) :
    (packWords ws).length = (ws.map Prod.fst).sum := by
  induction ws with
  | nil => rfl
  | cons w ws ih =>
    have hcons : packWords (w :: ws) = leBytes w.1 w.2 ++ packWords ws := rfl
    rw [hcons, List.length_append, leBytes_length, ih, List.map_cons, List.sum_cons]

theorem unpackWords_packWords (ws : List (ℕ × ℕ)) (h : ∀ w ∈ ws, w.2 < 256 ^ w.1)
    (rest : List Byte) :
    unpackWords (ws.map Prod.fst) (packWords ws ++ rest) = ws.map Prod.snd := by
  induction ws with
  | nil => rfl
  | cons w ws ih =>
    have hcons : packWords (w :: ws) = leBytes w.1 w.2 ++ packWords ws := rfl
    have hlen : (leBytes w.1 w.2).length = w.1 := leBytes_length w.1 w.2
    rw [hcons, List.append_assoc, List.map_cons, unpackWords, List.take_left' hlen,
      List.drop_left' hlen, leVal_leBytes, Nat.mod_eq_of_lt (h w List.mem_cons_self),
      ih fun v hv => h v (List.mem_cons_of_mem _ hv), List.map_cons]

/-! ### Files -/

structure ByteFile where
  data : List Byte
  pos : ℕ

namespace ByteFile

def empty : ByteFile := ⟨[], 0⟩

def seek (f : ByteFile) (pos : ℕ) : ByteFile := { f with pos := pos }

/-- At a position inside the file or at its end. -/
def write (f : ByteFile) (bs : List Byte) : ByteFile :=
  ⟨f.data.take f.pos ++ bs ++ f.data.drop (f.pos + bs.length), f.pos + bs.length⟩

def rest (f : ByteFile) : List Byte := f.data.drop f.pos

/-- A read that has to return all the bytes it asks for. -/
def readExact (f : ByteFile) (n : ℕ) : Option (List Byte × ByteFile) :=
  if n ≤ f.rest.length then some (f.rest.take n, f.seek (f.pos + n)) else none

theorem write_at_end (data bs : List Byte) :
    (⟨data, data.length⟩ : ByteFile).write bs = ⟨data ++ bs, (data ++ bs).length⟩ := by
  rw [write, List.take_length, List.drop_eq_nil_of_le (Nat.le_add_right _ _), List.append_nil,
    List.length_append]

theorem write_over (a b c b' : List Byte) (h : b'.length = b.length) :
    (⟨a ++ b ++ c, a.length⟩ : ByteFile).write b' = ⟨a ++ b' ++ c, (a ++ b').length⟩ := by
  have hdrop : (a ++ b ++ c).drop (a.length + b'.length) = c := by
    rw [h, ← List.length_append, List.drop_left' rfl]
  have htake : (a ++ b ++ c).take a.length = a := by
    rw [List.append_assoc, List.take_left' rfl]
  rw [write, hdrop, htake, List.length_append]

/-- Two writes in a row are one. -/
theorem write_write (f : ByteFile) (bs cs : List Byte) (h : f.pos ≤ f.data.length) :
    (f.write bs).write cs = f.write (bs ++ cs) := by
  have hlen : (f.data.take f.pos ++ bs).length = f.pos + bs.length := by
    rw [List.length_append, List.length_take, Nat.min_eq_left h]
  have htake : (f.data.take f.pos ++ bs ++ f.data.drop (f.pos + bs.length)).take
      (f.pos + bs.length) = f.data.take f.pos ++ bs := List.take_left' hlen
  have hdrop : (f.data.take f.pos ++ bs ++ f.data.drop (f.pos + bs.length)).drop
      (f.pos + bs.length + cs.length) = f.data.drop (f.pos + (bs ++ cs).length) := by
    rw [← List.drop_drop, List.drop_left' hlen, List.drop_drop, List.length_append, Nat.add_assoc]
  simp only [write, htake, hdrop]
  rw [List.append_assoc _ bs cs, List.length_append, Nat.add_assoc]

theorem rest_seek_add (f : ByteFile) (n : ℕ) : (f.seek (f.pos + n)).rest = f.rest.drop n := by
  rw [rest, rest, seek, List.drop_drop]

theorem readExact_of_rest {f : ByteFile} {bs more : List Byte} (h : f.rest = bs ++ more) {n : ℕ}
    (hn : bs.length = n) :
    ∃ f', f.readExact n = some (bs, f') ∧ f'.rest = more := by
  refine ⟨f.seek (f.pos + n), ?_, ?_⟩
  · rw [readExact, h, if_pos (by rw [List.length_append]; omega), List.take_left' hn]
  · rw [rest_seek_add, h, List.drop_left' hn]

end ByteFile
end FreqAnalysis.Base
