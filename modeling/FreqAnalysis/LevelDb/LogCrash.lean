import FreqAnalysis.LevelDb.LogRecover

/-!
# Logs cut off and logs damaged

A log is written by adding records, and may be closed and opened again between
them. Of a log cut off at any byte, exactly the records that are wholly in the
file come back, and nothing is reported. When up to four adjacent bytes of a
fragment are changed, the records that come back are the written ones but for
one run of them, and the mismatch is reported.
-/

namespace FreqAnalysis.LevelDb.Log

open Base Crc32c

/-! ### Runs of a writer -/

inductive Op
  | add (record : List Byte)
  /-- the file is closed, and appended to by a new `Writer(dest, dest_length)` -/
  | reopen

def recordsOf : List Op → List (List Byte)
  | [] => []
  | .add record :: ops => record :: recordsOf ops
  | .reopen :: ops => recordsOf ops

def run (w : Writer) : List Op → Option Writer
  | [] => some w
  | .add record :: ops =>
    match addRecord w record with
    | none => none
    | some w => run w ops
  | .reopen :: ops => run (Writer.reopen w.dest) ops

/-- The records of a run as fragments; a part of the run has written a part of them. -/
theorem run_layout (ops : List Op) (w : Writer) (hw : w.Consistent) :
    ∃ fss, List.Forall₂ (Fragments true) (recordsOf ops) fss ∧ Fits w.dest.length fss.flatten ∧
      ∀ j, ∃ w', run w (ops.take j) = some w' ∧
        w'.dest = w.dest ++
          layout w.dest.length (fss.take (recordsOf (ops.take j)).length).flatten := by
  induction ops generalizing w with
  | nil =>
    refine ⟨[], List.Forall₂.nil, trivial, ?_⟩
    intro j
    exact ⟨w, by simp [run], by simp [layout]⟩
  | cons op ops ih =>
    cases op with
    | add record =>
      obtain ⟨fs, w₁, hadd, hdest, hcons, hfits, hfrag⟩ := addRecord_layout w record hw
      obtain ⟨fss, hall, hfits', hparts⟩ := ih w₁ hcons
      have hlen : w₁.dest.length = w.dest.length + (layout w.dest.length fs).length := by
        rw [hdest, List.length_append]
      refine ⟨fs :: fss, List.Forall₂.cons hfrag hall, ?_, ?_⟩
      · rw [List.flatten_cons, fits_append, ← hlen]
        exact ⟨hfits, hfits'⟩
      · intro j
        cases j with
        | zero => exact ⟨w, rfl, by simp [recordsOf, layout]⟩
        | succ j =>
          obtain ⟨w', hrun, hdest'⟩ := hparts j
          refine ⟨w', ?_, ?_⟩
          · rw [List.take_succ_cons, run, hadd]
            exact hrun
          · rw [List.take_succ_cons, recordsOf, List.length_cons, List.take_succ_cons,
              List.flatten_cons, layout_append, ← List.append_assoc, ← hdest, ← hlen]
            exact hdest'
    | reopen =>
      obtain ⟨fss, hall, hfits, hparts⟩ := ih (Writer.reopen w.dest) (Writer.reopen_consistent _)
      refine ⟨fss, hall, hfits, ?_⟩
      intro j
      cases j with
      | zero => exact ⟨w, rfl, by simp [recordsOf, layout]⟩
      | succ j => exact hparts j

/-! ### The events of a log file -/

theorem layout_take_length_le (off k : ℕ) (fs : List Fragment) :
    (layout off (fs.take k)).length ≤ (layout off fs).length := by
  have happ := layout_append off (fs.take k) (fs.drop k)
  rw [List.take_append_drop] at happ
  rw [happ, List.length_append]
  exact Nat.le_add_right _ _

namespace Cursor

variable {file : List Byte} {c : Cursor} {pos stop : ℕ}

theorem At.unread_lt (h : At file c pos stop) {c' : Cursor} {pos' stop' : ℕ}
    (h' : At file c' pos' stop') (hlt : pos < pos') : c'.unread < c.unread := by
  have hle := h'.le_length
  rw [Cursor.unread, Cursor.unread, h.unread, h'.unread]
  omega

theorem lt_behind (pos : ℕ) (f : Fragment) : pos < behind pos f := by
  rw [behind, kHeaderSize_eq]
  omega

/-- Of fragments cut off after `m` bytes the cursor finds those that are complete. -/
theorem At.yields_take (checksum : Bool) (fs : List Fragment) (h : At file c pos stop)
    (hfits : Fits pos fs) (m : ℕ) (hfile : file.drop pos = (layout pos fs).take m) :
    ∃ k ≤ fs.length, Yields checksum c ((fs.take k).map .fragment) ∧
      (layout pos (fs.take k)).length ≤ m ∧
      (k < fs.length → m < (layout pos (fs.take (k + 1))).length) := by
  induction fs generalizing pos c stop m with
  | nil =>
    have hend : file.length ≤ pos := by
      rw [layout, List.take_nil] at hfile
      exact List.drop_eq_nil_iff.mp hfile
    obtain ⟨c', hread⟩ := h.no_header (by rw [kHeaderSize_eq]; omega)
    exact ⟨0, le_rfl, Yields.eof c c' (fun result => hread checksum 0 result), Nat.zero_le _,
      fun hlt => absurd hlt (Nat.lt_irrefl 0)⟩
  | cons f fs ih =>
    obtain ⟨hzero, hin, hrest⟩ := hfits
    by_cases hm : m < padding pos + (kHeaderSize + f.2.length)
    · obtain ⟨c', hread⟩ := h.read_torn f hin m hm hfile
      refine ⟨0, Nat.zero_le _, Yields.eof c c' hread, Nat.zero_le _, ?_⟩
      intro _
      simpa [layout] using hm
    · have hsplit : file.drop pos = List.replicate (padding pos) 0 ++ (physicalRecord f.1 f.2 ++
          (layout (behind pos f) fs).take (m - (padding pos + (kHeaderSize + f.2.length)))) := by
        rw [hfile, layout, List.take_append, List.take_append, List.length_replicate,
          physicalRecord_length, List.take_of_length_le (by rw [List.length_replicate]; omega),
          List.take_of_length_le (by rw [physicalRecord_length]; omega), Nat.sub_sub]
      obtain ⟨c', stop', h', hread⟩ := h.read_fragment f hzero hin hsplit
      have hdrop : file.drop (behind pos f) =
          (layout (behind pos f) fs).take (m - (padding pos + (kHeaderSize + f.2.length))) := by
        have hstep : behind pos f = pos + (padding pos + (kHeaderSize + f.2.length)) := by
          rw [behind]
          omega
        rw [hstep, ← List.drop_drop, ← hstep, hsplit, ← List.append_assoc]
        apply List.drop_left'
        rw [List.length_append, List.length_replicate, physicalRecord_length]
      obtain ⟨k, hk, hyields, hle, hlt⟩ := ih h' hrest _ hdrop
      have hlen : ∀ gs : List Fragment, (layout pos (f :: gs)).length =
          padding pos + (kHeaderSize + f.2.length) + (layout (behind pos f) gs).length := by
        intro gs
        simp only [layout, List.length_append, List.length_replicate, physicalRecord_length]
        omega
      refine ⟨k + 1, Nat.succ_le_succ hk,
        Yields.fragment c c' f _ hread (h.unread_lt h' (lt_behind pos f)) hyields, ?_, ?_⟩
      · rw [List.take_succ_cons, hlen]
        omega
      · intro hmore
        have hmore' : k < fs.length := by simpa using hmore
        have hnext := hlt hmore'
        rw [List.take_succ_cons, hlen]
        omega

theorem At.yields_all (checksum : Bool) (fs : List Fragment) (h : At file c pos stop)
    (hfits : Fits pos fs) (hfile : file.drop pos = layout pos fs) :
    Yields checksum c (fs.map .fragment) := by
  obtain ⟨k, hk, hyields, -, hlt⟩ :=
    h.yields_take checksum fs hfits (layout pos fs).length (by rw [hfile, List.take_length])
  have hall : k = fs.length := by
    by_contra hne
    have hshort := hlt (by omega)
    have hle := layout_take_length_le pos (k + 1) fs
    omega
  rw [hall, List.take_length] at hyields
  exact hyields

end Cursor

/-- From the end of a block on, the file is a layout of some last fragments. -/
theorem layout_drop_block (fs : List Fragment) (off stop : ℕ) (haligned : stop % kBlockSize = 0)
    (hle : off ≤ stop) (hnear : stop ≤ off + kBlockSize) (hfits : Fits off fs) :
    ∃ m, (layout off fs).drop (min stop (off + (layout off fs).length) - off) =
        layout (min stop (off + (layout off fs).length)) (fs.drop m) ∧
      Fits (min stop (off + (layout off fs).length)) (fs.drop m) := by
  induction fs generalizing off with
  | nil => exact ⟨0, by simp [layout], trivial⟩
  | cons f fs ih =>
    have hcons := layout_cons_length off f fs
    obtain ⟨hzero, hin, hrest⟩ := hfits
    by_cases hhere : off = stop
    · have hmin : min stop (off + (layout off (f :: fs)).length) = off := by omega
      rw [hmin, Nat.sub_self]
      exact ⟨0, rfl, hzero, hin, hrest⟩
    · rcases padding_spec off with ⟨hsmall, hpad⟩ | ⟨hlarge, hpad⟩
      · -- the fragment ends before the block does
        have hbehind : behind off f ≤ stop := by
          rw [behind, hpad]
          rw [hpad] at hin
          simp only [kBlockSize_eq, kHeaderSize_eq] at *
          omega
        have hoff := Cursor.lt_behind off f
        obtain ⟨m, hdrop, hfits'⟩ := ih (behind off f) hbehind (by omega) hrest
        refine ⟨m + 1, ?_, ?_⟩
        · rw [hcons, List.drop_succ_cons, ← hdrop, layout, hpad, List.replicate_zero,
            List.nil_append, List.drop_append]
          have hfront : (physicalRecord f.1 f.2).length = behind off f - off := by
            rw [physicalRecord_length, behind, hpad]
            omega
          rw [List.drop_eq_nil_of_le (by rw [hfront]; omega), List.nil_append, hfront]
          congr 1
          omega
        · rw [hcons, List.drop_succ_cons]
          exact hfits'
      · -- the rest of the block is the trailer in front of the fragment
        have hstop : off + padding off = stop := by
          simp only [kBlockSize_eq] at *
          omega
        have hmin : min stop (off + (layout off (f :: fs)).length) = stop := by
          rw [hcons, behind]
          omega
        have hnone : padding stop = 0 := by
          rcases padding_spec stop with ⟨-, hp⟩ | ⟨hlarge', -⟩
          · exact hp
          · rw [kBlockSize_eq] at haligned
            omega
        have hsame : behind stop f = behind off f := by
          rw [behind, behind, hnone, ← hstop]
          omega
        rw [hmin]
        refine ⟨0, ?_, ?_⟩
        · rw [List.drop_zero, layout, layout, hnone, hsame, List.replicate_zero, List.nil_append]
          apply List.drop_left'
          rw [List.length_replicate]
          omega
        · rw [List.drop_zero]
          refine ⟨hzero, ?_, hsame ▸ hrest⟩
          rw [hnone, Nat.add_zero, ← hstop]
          exact hin

/-- The bytes of a log in which a fragment's type and payload are replaced. -/
def overwritten (pos : ℕ) (before : List Fragment) (f : Fragment) (body : List Byte)
    (behindIt : List Fragment) : List Byte :=
  let off := pos + (layout pos before).length
  layout pos before ++ (List.replicate (padding off) 0 ++
    ((physicalRecord f.1 f.2).take 6 ++ (body ++ layout (behind off f) behindIt)))

theorem physicalRecord_body (f : Fragment) (t : Byte) (s : List Byte) (h : s.length = f.2.length) :
    (physicalRecord f.1 f.2).take 6 ++ t :: s =
      rawRecord (mask (extend (typeCrc f.1) f.2)) t s := by
  rw [physicalRecord, rawRecord, rawRecord, h, List.take_append, encodeFixed32_length,
    List.take_of_length_le (by rw [encodeFixed32_length]; omega)]
  simp

theorem layout_eq_overwritten (pos : ℕ) (xs : List Fragment) (f : Fragment) (ys : List Fragment) :
    layout pos (xs ++ f :: ys) = overwritten pos xs f (byteOf f.1.code :: f.2) ys := by
  have hbody := physicalRecord_body f (byteOf f.1.code) f.2 rfl
  rw [overwritten, layout_append, layout, ← List.append_assoc ((physicalRecord f.1 f.2).take 6), hbody]
  rfl

theorem overwritten_nil (pos : ℕ) (f : Fragment) (t : Byte) (s : List Byte)
    (hs : s.length = f.2.length) (ys : List Fragment) :
    overwritten pos [] f (t :: s) ys = List.replicate (padding pos) 0 ++
      (rawRecord (mask (extend (typeCrc f.1) f.2)) t s ++ layout (behind pos f) ys) := by
  have hzero : pos + (layout pos []).length = pos := Nat.add_zero pos
  have hnil : layout pos [] = [] := rfl
  rw [overwritten, hzero, hnil, List.nil_append, ← physicalRecord_body f t s hs,
    List.append_assoc]

theorem overwritten_cons (pos : ℕ) (g : Fragment) (xs : List Fragment) (f : Fragment)
    (body : List Byte) (ys : List Fragment) :
    overwritten pos (g :: xs) f body ys = List.replicate (padding pos) 0 ++
      (physicalRecord g.1 g.2 ++ overwritten (behind pos g) xs f body ys) := by
  rw [overwritten, overwritten, layout_cons_length, layout]
  simp only [List.append_assoc]

/-- The cursor on a log with a damaged fragment: the fragments before it, and
those from the next block on. -/
theorem Cursor.At.yields_damaged {file : List Byte} {c : Cursor} {pos stop : ℕ}
    (xs : List Fragment) (f : Fragment) (ys : List Fragment) (t : Byte) (s : List Byte)
    (h : At file c pos stop) (hfits : Fits pos (xs ++ f :: ys)) (hs : s.length = f.2.length)
    (ht : ¬ (t = 0 ∧ s = [])) (hcrc : value (t :: s) ≠ value (byteOf f.1.code :: f.2))
    (hfile : file.drop pos = overwritten pos xs f (t :: s) ys) :
    ∃ dropped m, Yields true c (xs.map .fragment ++
      .bad [(dropped, "checksum mismatch")] :: (ys.drop m).map .fragment) := by
  induction xs generalizing pos c stop with
  | nil =>
    obtain ⟨-, hin, hrest⟩ := hfits
    have hraw := hfile.trans (overwritten_nil pos f t s hs ys)
    have hmismatch : value (t :: s) ≠ unmask (mask (extend (typeCrc f.1) f.2)) := by
      rw [← value_typed]
      exact hcrc
    obtain ⟨c', stop', dropped, h', hend, hnear, hread⟩ :=
      h.read_damaged ht (by rw [hs]; exact hin) hraw hmismatch
    have hbehind : behind pos f = pos + (padding pos + (kHeaderSize + s.length)) := by
      rw [behind, hs]
      omega
    have hdrop : file.drop (behind pos f) = layout (behind pos f) ys := by
      rw [hbehind, ← List.drop_drop, ← hbehind, hraw, ← List.append_assoc]
      apply List.drop_left'
      rw [List.length_append, List.length_replicate, rawRecord_length]
    have hlength : file.length = behind pos f + (layout (behind pos f) ys).length := by
      have htotal := congrArg List.length hraw
      have hle := h.le_length
      simp only [List.length_drop, List.length_append, List.length_replicate,
        rawRecord_length] at htotal
      rw [hbehind] at htotal ⊢
      omega
    obtain ⟨m, hblock, hfits'⟩ := layout_drop_block ys (behind pos f) stop' h'.aligned
      (by rw [hbehind]; omega) (by rw [hbehind]; omega) hrest
    rw [← hlength] at hblock hfits'
    have hrestart : file.drop (min stop' file.length) =
        layout (min stop' file.length) (ys.drop m) := by
      rw [← hblock, ← hdrop, List.drop_drop]
      congr 1
      omega
    have hpos : pos < min stop' file.length := by
      have hlt := lt_behind pos f
      omega
    exact ⟨dropped, m, Yields.bad c c' _ _ hread (h.unread_lt h' hpos)
      (h'.yields_all true (ys.drop m) hfits' hrestart)⟩
  | cons g xs ih =>
    obtain ⟨hzero, hin, hrest⟩ := hfits
    have hsplit := hfile.trans (overwritten_cons pos g xs f (t :: s) ys)
    obtain ⟨c', stop', h', hread⟩ := h.read_fragment g hzero hin hsplit
    have hdrop : file.drop (behind pos g) = overwritten (behind pos g) xs f (t :: s) ys := by
      have hstep : behind pos g = pos + (padding pos + (kHeaderSize + g.2.length)) := by
        rw [behind]
        omega
      rw [hstep, ← List.drop_drop, ← hstep, hsplit, ← List.append_assoc]
      apply List.drop_left'
      rw [List.length_append, List.length_replicate, physicalRecord_length]
    obtain ⟨dropped, m, hyields⟩ := ih h' hrest hdrop
    exact ⟨dropped, m,
      Yields.fragment c c' g _ hread (h.unread_lt h' (lt_behind pos g)) hyields⟩

/-! ### Assembling the fragments of records -/

theorem assemble_fragments {begin : Bool} {d : List Byte} {fs : List Fragment}
    (h : Fragments begin d fs) (scratch : List Byte) (hs : begin = true → scratch = [])
    (events : List Event) :
    assemble (if begin then none else some scratch) (fs.map .fragment ++ events) =
      consRecord [] (scratch ++ d) (assemble none events) := by
  induction h generalizing scratch with
  | last begin d =>
    cases begin with
    | false => simp [fragmentType, assemble]
    | true => simp [fragmentType, assemble, dropReports, hs rfl]
  | more begin d e fs _ ih =>
    cases begin with
    | false =>
      have hrest := ih (scratch ++ d) (fun h => absurd h (by decide))
      simpa [fragmentType, assemble] using hrest
    | true =>
      have hrest := ih d (fun h => absurd h (by decide))
      simpa [fragmentType, assemble, dropReports, consReports, hs rfl] using hrest

theorem assemble_partial {begin : Bool} {d : List Byte} {fs : List Fragment}
    (h : Fragments begin d fs) (scratch : List Byte) (k : ℕ) (hk : k < fs.length) :
    assemble (if begin then none else some scratch) ((fs.take k).map .fragment) = ([], []) := by
  induction h generalizing scratch k with
  | last begin d =>
    have hzero : k = 0 := by simpa using hk
    rw [hzero]
    simp [assemble]
  | more begin d e fs _ ih =>
    cases k with
    | zero => simp [assemble]
    | succ k =>
      have hk' : k < fs.length := by simpa using hk
      cases begin with
      | false => simpa [fragmentType, assemble] using ih (scratch ++ d) k hk'
      | true =>
        simpa [fragmentType, assemble, dropReports, consReports] using ih d k hk'

/-- The last fragments of a record whose start is missing leave no record. -/
theorem assemble_lost {begin : Bool} {d : List Byte} {fs : List Fragment}
    (h : Fragments begin d fs) (k : ℕ) (hk : begin = true → 0 < k) (events : List Event) :
    (assemble none ((fs.drop k).map .fragment ++ events)).1 = (assemble none events).1 := by
  induction h generalizing k with
  | last begin d =>
    cases k with
    | zero =>
      have hbegin : begin = false := by
        cases begin with
        | false => rfl
        | true => exact absurd (hk rfl) (Nat.lt_irrefl 0)
      simp [hbegin, fragmentType, assemble, consReports]
    | succ k => simp
  | more begin d e fs _ ih =>
    cases k with
    | zero =>
      have hbegin : begin = false := by
        cases begin with
        | false => rfl
        | true => exact absurd (hk rfl) (Nat.lt_irrefl 0)
      have hrest := ih 0 (fun h => absurd h (by decide))
      simpa [hbegin, fragmentType, assemble, consReports] using hrest
    | succ k => simpa using ih k (fun h => absurd h (by decide))

theorem assemble_bad (pending : Option (List Byte)) (events events' : List Event)
    (reports : List Report) :
    (assemble pending (events ++ .bad reports :: events')).1 =
        (assemble pending events).1 ++ (assemble none events').1 ∧
      ∀ x ∈ reports, x ∈ (assemble pending (events ++ .bad reports :: events')).2 := by
  induction events generalizing pending with
  | nil => cases pending <;> simp +contextual [assemble, consReports]
  | cons event events ih =>
    cases event with
    | bad other => cases pending <;> simp +contextual [assemble, consReports, ih]
    | fragment f =>
      obtain ⟨t, d⟩ := f
      cases t <;> cases pending <;>
        simp +contextual [assemble, consReports, consRecord, ih]

theorem flatten_take_length_le {α : Type} (l : List (List α)) (k : ℕ) :
    (l.take k).flatten.length ≤ l.flatten.length := by
  have happ := congrArg List.flatten (List.take_append_drop k l)
  rw [List.flatten_append] at happ
  rw [← happ, List.length_append]
  exact Nat.le_add_right _ _

theorem flatten_take_length_mono {α : Type} (l : List (List α)) {j k : ℕ} (h : j ≤ k) :
    (l.take j).flatten.length ≤ (l.take k).flatten.length := by
  have hle := flatten_take_length_le (l.take k) j
  rwa [List.take_take, Nat.min_eq_left h] at hle

theorem flatten_take_eq {α : Type} (l : List (List α)) (k : ℕ) :
    (l.take k).flatten = l.flatten.take (l.take k).flatten.length := by
  have happ := congrArg List.flatten (List.take_append_drop k l)
  rw [List.flatten_append] at happ
  conv_rhs => rw [← happ]
  rw [List.take_left]

/-- The fragments of whole records and a part of the next one. -/
theorem assemble_prefix {rs : List (List Byte)} {fss : List (List Fragment)}
    (h : List.Forall₂ (Fragments true) rs fss) (n : ℕ) :
    ∃ i ≤ rs.length, assemble none ((fss.flatten.take n).map .fragment) = (rs.take i, []) ∧
      (i < rs.length → n < (fss.take (i + 1)).flatten.length) ∧
      (n ≤ fss.flatten.length → (fss.take i).flatten.length ≤ n) := by
  induction h generalizing n with
  | nil => exact ⟨0, le_rfl, by simp [assemble], by simp, by simp⟩
  | @cons r fs rs fss hfrag _ ih =>
    by_cases hn : n < fs.length
    · refine ⟨0, Nat.zero_le _, ?_, ?_, ?_⟩
      · have htake : (List.flatten (fs :: fss)).take n = fs.take n := by
          rw [List.flatten_cons, List.take_append_of_le_length hn.le]
        rw [htake]
        exact assemble_partial hfrag [] n hn
      · intro _
        simpa using hn
      · intro _
        simp
    · obtain ⟨i, hi, hasm, hlt, hle⟩ := ih (n - fs.length)
      have htake : (List.flatten (fs :: fss)).take n = fs ++ fss.flatten.take (n - fs.length) := by
        rw [List.flatten_cons, List.take_append, List.take_of_length_le (by omega)]
      refine ⟨i + 1, Nat.succ_le_succ hi, ?_, ?_, ?_⟩
      · have hwhole := assemble_fragments hfrag [] (fun _ => rfl)
          ((fss.flatten.take (n - fs.length)).map .fragment)
        rw [htake, List.map_append]
        refine hwhole.trans ?_
        rw [hasm]
        rfl
      · intro hmore
        have hnext := hlt (by simpa using hmore)
        rw [List.take_succ_cons, List.flatten_cons, List.length_append]
        omega
      · intro hall
        rw [List.flatten_cons, List.length_append] at hall
        have hpart := hle (by omega)
        rw [List.take_succ_cons, List.flatten_cons, List.length_append]
        omega

/-- Fragments from the middle of a log on: a record whose first fragment is gone is lost. -/
theorem assemble_suffix {rs : List (List Byte)} {fss : List (List Fragment)}
    (h : List.Forall₂ (Fragments true) rs fss) (n : ℕ) (hn : n ≤ fss.flatten.length) :
    ∃ j, (assemble none ((fss.flatten.drop n).map .fragment)).1 = rs.drop j ∧
      n ≤ (fss.take j).flatten.length := by
  induction h generalizing n with
  | nil => exact ⟨0, by simp [assemble], by simpa using hn⟩
  | @cons r fs rs fss hfrag hall ih =>
    have hwhole : (assemble none (fss.flatten.map .fragment)).1 = rs := by
      obtain ⟨i, hi, hasm, hlt, -⟩ := assemble_prefix hall fss.flatten.length
      have hi' : i = rs.length := by
        by_contra hne
        have hshort := hlt (by omega)
        have hle := flatten_take_length_le fss (i + 1)
        omega
      rw [List.take_length, hi', List.take_length] at hasm
      rw [hasm]
    rcases Nat.lt_or_ge fs.length n with hpast | hwithin
    · obtain ⟨j, hj, hlen⟩ := ih (n - fs.length) (by
        rw [List.flatten_cons, List.length_append] at hn
        omega)
      refine ⟨j + 1, ?_, ?_⟩
      · rw [List.flatten_cons, List.drop_append, List.drop_eq_nil_of_le hpast.le, List.nil_append,
          List.drop_succ_cons]
        exact hj
      · rw [List.take_succ_cons, List.flatten_cons, List.length_append]
        omega
    · have hdrop : (List.flatten (fs :: fss)).drop n = fs.drop n ++ fss.flatten := by
        rw [List.flatten_cons, List.drop_append_of_le_length hwithin]
      rw [hdrop, List.map_append]
      rcases Nat.eq_zero_or_pos n with hzero | hpos
      · refine ⟨0, ?_, by omega⟩
        have hfirst := assemble_fragments hfrag [] (fun _ => rfl) (fss.flatten.map .fragment)
        rw [hzero, List.drop_zero]
        refine (congrArg Prod.fst hfirst).trans ?_
        rw [consRecord, hwhole]
        rfl
      · refine ⟨1, ?_, ?_⟩
        · rw [assemble_lost hfrag n (fun _ => hpos), hwhole]
          rfl
        · simpa using hwithin

/-! ### Logs cut off -/

theorem recordsOf_take_length_le (ops : List Op) (j : ℕ) :
    (recordsOf (ops.take j)).length ≤ (recordsOf ops).length := by
  induction ops generalizing j with
  | nil => simp
  | cons op ops ih =>
    cases j with
    | zero => exact Nat.zero_le _
    | succ j =>
      cases op with
      | add record => exact Nat.succ_le_succ (ih j)
      | reopen => exact ih j

/-- A log cut off after `n` bytes is read back up to the last record that is whole. -/
theorem layout_cut {records : List (List Byte)} {fss : List (List Fragment)}
    (hall : List.Forall₂ (Fragments true) records fss) (hfits : Fits 0 fss.flatten)
    (checksum : Bool) (n : ℕ) :
    ∃ k ≤ records.length,
      readLog ((layout 0 fss.flatten).take n) checksum 0 = some (records.take k, []) ∧
      ∀ q ≤ records.length, (layout 0 (fss.take q).flatten).length ≤ n ↔ q ≤ k := by
  obtain ⟨m, hm, hyields, hfit, hcut⟩ :=
    (Cursor.at_create ((layout 0 fss.flatten).take n)).yields_take checksum fss.flatten hfits n
      (by rw [List.drop_zero])
  obtain ⟨k, hk, hasm, hlt, hle⟩ := assemble_prefix hall m
  refine ⟨k, hk, ?_, ?_⟩
  · rw [readLog_of_yields hyields, hasm]
  intro q hq
  have hflat := flatten_take_eq fss q
  have hsub := flatten_take_length_le fss q
  refine ⟨fun hbytes => ?_, fun hqk => ?_⟩
  · -- one more whole record would be one more whole fragment
    by_contra hmore
    have hnext := hlt (by omega)
    have hmono := flatten_take_length_mono fss (show k + 1 ≤ q by omega)
    have hlong := hcut (by omega)
    have hshort := layout_take_length_le 0 (m + 1) (fss.take q).flatten
    rw [hflat, List.take_take, Nat.min_eq_left (by omega), ← hflat] at hshort
    omega
  · have hmono := flatten_take_length_mono fss hqk
    have hwhole := hle hm
    have hshort := layout_take_length_le 0 (fss.take q).flatten.length (fss.flatten.take m)
    rw [List.take_take, Nat.min_eq_left (by omega), ← hflat] at hshort
    omega

/-- A log cut off after `n` bytes has lost the records that ended behind them. -/
theorem run_cut (ops : List Op) (checksum : Bool) (n : ℕ) :
    ∃ w k, run Writer.create ops = some w ∧ k ≤ (recordsOf ops).length ∧
      readLog (w.dest.take n) checksum 0 = some ((recordsOf ops).take k, []) ∧
      ∀ j, ∃ w', run Writer.create (ops.take j) = some w' ∧
        (w'.dest.length ≤ n ↔ (recordsOf (ops.take j)).length ≤ k) := by
  obtain ⟨fss, hall, hfits, hparts⟩ := run_layout ops Writer.create Writer.create_consistent
  have hwritten : ∀ j, ∃ w', run Writer.create (ops.take j) = some w' ∧
      w'.dest = layout 0 (fss.take (recordsOf (ops.take j)).length).flatten := hparts
  obtain ⟨w, hrun, hdest⟩ := hwritten ops.length
  rw [List.take_length] at hrun hdest
  rw [hall.length_eq, List.take_length] at hdest
  obtain ⟨k, hk, hread, hiff⟩ := layout_cut hall hfits checksum n
  refine ⟨w, k, hrun, hk, by rw [hdest, hread], fun j => ?_⟩
  obtain ⟨w', hrun', hdest'⟩ := hwritten j
  refine ⟨w', hrun', ?_⟩
  rw [hdest']
  exact hiff _ (recordsOf_take_length_le ops j)

/-- Whatever the writer did and wherever the file ends, the records whose last
byte is in the file come back, in order, and no corruption is reported. -/
theorem crash_keeps_prefix (ops : List Op) (checksum : Bool) (n : ℕ) :
    ∃ w k, run Writer.create ops = some w ∧ k ≤ (recordsOf ops).length ∧
      readLog (w.dest.take n) checksum 0 = some ((recordsOf ops).take k, []) ∧
      ∀ j w', run Writer.create (ops.take j) = some w' →
        (w'.dest.length ≤ n ↔ (recordsOf (ops.take j)).length ≤ k) := by
  obtain ⟨w, k, hrun, hk, hread, hmoments⟩ := run_cut ops checksum n
  refine ⟨w, k, hrun, hk, hread, fun j w' hrun' => ?_⟩
  obtain ⟨w'', hrun'', hiff⟩ := hmoments j
  obtain rfl : w' = w'' := Option.some.inj (hrun'.symm.trans hrun'')
  exact hiff

theorem recordsOf_map_add (records : List (List Byte)) :
    recordsOf (records.map Op.add) = records := by
  induction records with
  | nil => rfl
  | cons record records ih => rw [List.map_cons, recordsOf, ih]

/-- The same for records added one after the other, as a database adds them. -/
theorem run_adds_cut (records : List (List Byte)) (checksum : Bool) (n : ℕ) :
    ∃ w k, run Writer.create (records.map Op.add) = some w ∧ k ≤ records.length ∧
      readLog (w.dest.take n) checksum 0 = some (records.take k, []) ∧
      ∀ q ≤ records.length, ∃ w', run Writer.create ((records.take q).map Op.add) = some w' ∧
        (w'.dest.length ≤ n ↔ q ≤ k) := by
  obtain ⟨w, k, hrun, hk, hread, hmoments⟩ := run_cut (records.map Op.add) checksum n
  rw [recordsOf_map_add] at hk hread
  refine ⟨w, k, hrun, hk, hread, fun q hq => ?_⟩
  have hq' := hmoments q
  rwa [← List.map_take, recordsOf_map_add, List.length_take, Nat.min_eq_left hq] at hq'

/-! ### Logs damaged -/

/-- Up to four adjacent bytes of a fragment's type and payload are replaced. The
reader reports it and loses one run of records, at least one of them. -/
theorem damage_loses_one_run (ops : List Op) :
    ∃ w fs, run Writer.create ops = some w ∧ w.dest = layout 0 fs ∧
      ∀ xs f ys, fs = xs ++ f :: ys → ∀ a u v b, byteOf f.1.code :: f.2 = a ++ (u ++ b) →
        u.length = v.length → u.length ≤ 4 → u ≠ v → a ++ (v ++ b) ≠ [0] →
        w.dest = overwritten 0 xs f (a ++ (u ++ b)) ys ∧
          ∃ i j dropped reports, i < j ∧ i < (recordsOf ops).length ∧
            readLog (overwritten 0 xs f (a ++ (v ++ b)) ys) true 0 =
              some ((recordsOf ops).take i ++ (recordsOf ops).drop j, reports) ∧
            (dropped, "checksum mismatch") ∈ reports := by
  obtain ⟨fss, hall, hfits, hparts⟩ := run_layout ops Writer.create Writer.create_consistent
  obtain ⟨w, hrun, hdest⟩ := hparts ops.length
  rw [List.take_length] at hrun hdest
  have hdest' : w.dest = layout 0 fss.flatten := by
    rw [hall.length_eq, List.take_length] at hdest
    exact hdest
  refine ⟨w, fss.flatten, hrun, hdest', ?_⟩
  intro xs f ys hsplit a u v b hbody hlen hfour hne hzero
  refine ⟨by rw [hdest', hsplit, layout_eq_overwritten, hbody], ?_⟩
  obtain ⟨t, s, hts⟩ : ∃ t s, a ++ (v ++ b) = t :: s := by
    apply List.exists_cons_of_ne_nil
    intro hnil
    have htotal := congrArg List.length hbody
    have hnone := congrArg List.length hnil
    simp only [List.length_cons, List.length_append, List.length_nil] at htotal hnone
    omega
  have hs : s.length = f.2.length := by
    have htotal := congrArg List.length hbody
    have hother := congrArg List.length hts
    simp only [List.length_cons, List.length_append] at htotal hother
    omega
  have hcrc : value (t :: s) ≠ value (byteOf f.1.code :: f.2) := by
    rw [← hts, hbody]
    exact (value_ne_of_window a u v b hlen hfour hne).symm
  have ht : ¬ (t = 0 ∧ s = []) := by
    rintro ⟨rfl, rfl⟩
    exact hzero hts
  rw [hts]
  obtain ⟨dropped, m, hyields⟩ := (Cursor.at_create (overwritten 0 xs f (t :: s) ys)).yields_damaged
    xs f ys t s (by rw [← hsplit]; exact hfits) hs ht hcrc (List.drop_zero ..)
  obtain ⟨hrecords, hreports⟩ := assemble_bad none (xs.map .fragment) ((ys.drop m).map .fragment)
    [(dropped, "checksum mismatch")]
  have hxs : xs = fss.flatten.take xs.length := by rw [hsplit, List.take_left]
  have hys : fss.flatten.drop (xs.length + 1 + min m ys.length) = ys.drop m := by
    have hpast : ∀ q, fss.flatten.drop (xs.length + 1 + q) = ys.drop q := by
      intro q
      rw [hsplit, Nat.add_assoc, ← List.drop_drop, List.drop_left, Nat.add_comm,
        List.drop_succ_cons]
    rw [hpast]
    rcases Nat.le_total m ys.length with hmin | hmin
    · rw [Nat.min_eq_left hmin]
    · rw [Nat.min_eq_right hmin, List.drop_length, List.drop_eq_nil_of_le hmin]
  have hlength : fss.flatten.length = xs.length + (ys.length + 1) := by
    rw [hsplit, List.length_append, List.length_cons]
  obtain ⟨i, -, hasm, -, hle⟩ := assemble_prefix hall xs.length
  obtain ⟨j, hrest, hge⟩ := assemble_suffix hall (xs.length + 1 + min m ys.length) (by omega)
  rw [← hxs] at hasm
  rw [hys] at hrest
  rw [hasm, hrest] at hrecords
  have hij : i < j := by
    by_contra hji
    have hmono := flatten_take_length_mono fss (show j ≤ i by omega)
    have hshort := hle (by omega)
    omega
  have hlost : i < (recordsOf ops).length := by
    by_contra hnone
    have hwhole := hle (by omega)
    rw [List.take_of_length_le (by rw [← hall.length_eq]; omega)] at hwhole
    omega
  refine ⟨i, j, dropped, _, hij, hlost, ?_, hreports _ (List.mem_singleton_self _)⟩
  rw [readLog_of_yields hyields, ← hrecords]

end FreqAnalysis.LevelDb.Log
