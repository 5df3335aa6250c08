import Mathlib.Data.Nat.ModEq
import FreqAnalysis.LevelDb.Coding

/-!
# Batches of updates

`db/write_batch.cc`. A batch is a string: the sequence number of its first
update, the number of updates, and the updates one behind the other. `Iterate`
parses it and hands each update to a handler; the handler that inserts them into
a memtable gives each the next sequence number. A status is `none` when it is OK.
-/

namespace FreqAnalysis.LevelDb

open Base

inductive ValueType
  | deletion | value
deriving DecidableEq

def ValueType.code : ValueType → ℕ
  | deletion => 0
  | value => 1

namespace WriteBatch

/-- A sequence number of eight bytes and a count of four. -/
def kHeader : ℕ := 12

end WriteBatch

/-- `rep_`, which always has room for the header. -/
structure WriteBatch where
  rep : List Byte
  header : WriteBatch.kHeader ≤ rep.length

namespace WriteBatch

/-- A `uint32_t` returned as an `int`. -/
def count (b : WriteBatch) : ℤ := cInt (decodeFixed32 (b.rep.drop 8))

def setCount (b : WriteBatch) (n : ℤ) : WriteBatch where
  rep := b.rep.take 8 ++ (encodeFixed32 (n % 2 ^ 32).toNat ++ b.rep.drop kHeader)
  header := by
    have := b.header
    simp only [kHeader] at this ⊢
    simp
    omega

def sequence (b : WriteBatch) : ℕ := decodeFixed64 b.rep

def setSequence (b : WriteBatch) (seq : ℕ) : WriteBatch where
  rep := encodeFixed64 seq ++ b.rep.drop 8
  header := by
    have := b.header
    simp only [kHeader] at this ⊢
    simp
    omega

def extended (b : WriteBatch) (data : List Byte) : WriteBatch where
  rep := b.rep ++ data
  header := by
    have := b.header
    simp only [List.length_append]
    omega

def clear : WriteBatch where
  rep := List.replicate kHeader 0
  header := by simp

def put (b : WriteBatch) (key value : List Byte) : WriteBatch :=
  (b.setCount (b.count + 1)).extended
    (byteOf ValueType.value.code :: (putLengthPrefixedSlice key ++ putLengthPrefixedSlice value))

def delete (b : WriteBatch) (key : List Byte) : WriteBatch :=
  (b.setCount (b.count + 1)).extended
    (byteOf ValueType.deletion.code :: putLengthPrefixedSlice key)

def append (dst src : WriteBatch) : WriteBatch :=
  (dst.setCount (dst.count + src.count)).extended (src.rep.drop kHeader)

end WriteBatch

/-! ### Parsing a batch -/

theorem getVarint32PtrFallback_shorter {shift result len : ℕ} {p rest : List Byte}
    (h : getVarint32PtrFallback shift result p = some (len, rest)) : rest.length < p.length := by
  induction p generalizing shift result with
  | nil => simp [getVarint32PtrFallback] at h
  | cons byte p ih =>
    rw [getVarint32PtrFallback] at h
    split_ifs at h with hs hmore
    · have := ih h
      simp only [List.length_cons]
      omega
    · have hrest : p = rest := congrArg Prod.snd (Option.some.inj h)
      simp [hrest]

theorem getVarint32Ptr_shorter {len : ℕ} {p rest : List Byte}
    (h : getVarint32Ptr p = some (len, rest)) : rest.length < p.length := by
  cases p with
  | nil => simp [getVarint32Ptr, getVarint32PtrFallback] at h
  | cons byte p =>
    rw [getVarint32Ptr] at h
    split_ifs at h with hlast
    · have hrest : p = rest := congrArg Prod.snd (Option.some.inj h)
      simp [hrest]
    · exact getVarint32PtrFallback_shorter h

theorem getLengthPrefixedSlice_shorter {input s rest : List Byte}
    (h : getLengthPrefixedSlice input = some (s, rest)) : rest.length < input.length := by
  rw [getLengthPrefixedSlice] at h
  split at h
  · next len p hlen =>
    have hp := getVarint32Ptr_shorter hlen
    split_ifs at h with hfit
    have hrest : p.drop len = rest := congrArg Prod.snd (Option.some.inj h)
    rw [← hrest, List.length_drop]
    omega
  · exact absurd h (by simp)

namespace WriteBatch

/-- The callbacks of `WriteBatch::Handler`, as functions of the handler's state. -/
structure Handler (σ : Type*) where
  put : σ → List Byte → List Byte → σ
  delete : σ → List Byte → σ

variable {σ : Type*}

/-- The loop of `Iterate`: the status, the updates found and the handler. -/
def iterateLoop (handler : Handler σ) (found : ℕ) (input : List Byte) (s : σ) :
    Option String × ℕ × σ :=
  match input with
  | [] => (none, found, s)
  | tag :: input =>
    if tag.val = ValueType.value.code then
      match hkey : getLengthPrefixedSlice input with
      | none => (some "bad WriteBatch Put", found + 1, s)
      | some (key, input') =>
        match hvalue : getLengthPrefixedSlice input' with
        | none => (some "bad WriteBatch Put", found + 1, s)
        | some (value, input'') =>
          have := getLengthPrefixedSlice_shorter hkey
          have := getLengthPrefixedSlice_shorter hvalue
          iterateLoop handler (found + 1) input'' (handler.put s key value)
    else if tag.val = ValueType.deletion.code then
      match hkey : getLengthPrefixedSlice input with
      | none => (some "bad WriteBatch Delete", found + 1, s)
      | some (key, input') =>
        have := getLengthPrefixedSlice_shorter hkey
        iterateLoop handler (found + 1) input' (handler.delete s key)
    else (some "unknown WriteBatch tag", found + 1, s)
termination_by input.length
decreasing_by all_goals simp only [List.length_cons]; omega

/-- Updates parsed before an error have already been handed to the handler. -/
def iterate (b : WriteBatch) (handler : Handler σ) (s : σ) : Option String × σ :=
  if b.rep.length < kHeader then (some "malformed WriteBatch (too small)", s)
  else
    match iterateLoop handler 0 (b.rep.drop kHeader) s with
    | (some error, _, s) => (some error, s)
    | (none, found, s) =>
      if (found : ℤ) ≠ b.count then (some "WriteBatch has wrong count", s) else (none, s)

end WriteBatch

/-! ### Memtables -/

/-- The entries of a memtable, in the order of their insertion. -/
abbrev MemTable := List (List Byte)

/-- The entry that `MemTable::Add` builds: the internal key and the value. -/
def memEntry (s : ℕ) (type : ValueType) (key value : List Byte) : List Byte :=
  encodeVarint32 ((key.length + 8) % 2 ^ 32) ++ (key ++
    (encodeFixed64 ((s <<< 8 ||| type.code) % 2 ^ 64) ++
      (encodeVarint32 (value.length % 2 ^ 32) ++ value)))

def MemTable.add (mem : MemTable) (s : ℕ) (type : ValueType) (key value : List Byte) : MemTable :=
  mem ++ [memEntry s type key value]

namespace WriteBatch

/-- `sequence_` and `mem_` of the handler that inserts into a memtable. -/
def memTableInserter : Handler (ℕ × MemTable) where
  put s key value := ((s.1 + 1) % 2 ^ 64, s.2.add s.1 .value key value)
  delete s key := ((s.1 + 1) % 2 ^ 64, s.2.add s.1 .deletion key [])

def insertInto (b : WriteBatch) (mem : MemTable) : Option String × MemTable :=
  match b.iterate memTableInserter (b.sequence, mem) with
  | (status, s) => (status, s.2)

end WriteBatch

/-! ### What a batch carries -/

inductive Update
  | put (key value : List Byte)
  | delete (key : List Byte)

/-- Lengths are stored as `uint32_t`. -/
def Update.Sized : Update → Prop
  | put key value => key.length < 2 ^ 32 ∧ value.length < 2 ^ 32
  | delete key => key.length < 2 ^ 32

def Update.encode : Update → List Byte
  | put key value =>
    byteOf ValueType.value.code :: (putLengthPrefixedSlice key ++ putLengthPrefixedSlice value)
  | delete key => byteOf ValueType.deletion.code :: putLengthPrefixedSlice key

/-- The call of the batch that records an update. -/
def Update.addTo (b : WriteBatch) : Update → WriteBatch
  | put key value => b.put key value
  | delete key => b.delete key

/-- The call of the handler that an update causes. -/
def Update.handle {σ : Type*} (handler : WriteBatch.Handler σ) (s : σ) : Update → σ
  | put key value => handler.put s key value
  | delete key => handler.delete s key

/-- The memtable entry of an update with a sequence number. -/
def Update.entry (s : ℕ) : Update → List Byte
  | put key value => memEntry s .value key value
  | delete key => memEntry s .deletion key []

/-- The entries of updates numbered from `s` on. -/
def entries (s : ℕ) : List Update → MemTable
  | [] => []
  | u :: us => u.entry s :: entries (s + 1) us

/-- A tag has 64 bits, so a sequence number counts modulo `2 ^ 64` only. -/
theorem memEntry_congr {s t : ℕ} (h : s ≡ t [MOD 2 ^ 64]) (type : ValueType)
    (key value : List Byte) : memEntry s type key value = memEntry t type key value := by
  have hshift : (s <<< 8) % 2 ^ 64 = (t <<< 8) % 2 ^ 64 := by
    rw [Nat.shiftLeft_eq, Nat.shiftLeft_eq]
    exact h.mul_right (2 ^ 8)
  rw [memEntry, memEntry, Nat.or_mod_two_pow, Nat.or_mod_two_pow, hshift]

theorem entries_congr {s t : ℕ} (h : s ≡ t [MOD 2 ^ 64]) (us : List Update) :
    entries s us = entries t us := by
  induction us generalizing s t with
  | nil => rfl
  | cons u us ih =>
    have hentry : u.entry s = u.entry t := by
      cases u <;> exact memEntry_congr h _ _ _
    rw [entries, entries, hentry, ih (h.add_right 1)]

namespace WriteBatch

def image (seq : ℕ) (us : List Update) : List Byte :=
  encodeFixed64 seq ++ (encodeFixed32 us.length ++ us.flatMap Update.encode)

/-- The batch holds these updates, with whatever sequence number. -/
def Carries (b : WriteBatch) (us : List Update) : Prop := ∃ seq, b.rep = image seq us

variable {σ : Type*}

theorem iterateLoop_encode (handler : Handler σ) (found : ℕ) (u : Update) (rest : List Byte)
    (s : σ) (hu : u.Sized) :
    iterateLoop handler found (u.encode ++ rest) s =
      iterateLoop handler (found + 1) rest (u.handle handler s) := by
  cases u with
  | put key value =>
    have hkey := getLengthPrefixedSlice_put key (putLengthPrefixedSlice value ++ rest) hu.1
    have hvalue := getLengthPrefixedSlice_put value rest hu.2
    have htag : (byteOf ValueType.value.code).val = ValueType.value.code := rfl
    rw [Update.encode, List.cons_append, List.append_assoc, iterateLoop, if_pos htag]
    split
    · next h => simp [hkey] at h
    · next h =>
      obtain ⟨rfl, rfl⟩ := Prod.mk.inj (Option.some.inj (hkey.symm.trans h))
      split
      · next h' => simp [hvalue] at h'
      · next h' =>
        obtain ⟨rfl, rfl⟩ := Prod.mk.inj (Option.some.inj (hvalue.symm.trans h'))
        rfl
  | delete key =>
    have hkey := getLengthPrefixedSlice_put key rest hu
    have htag : (byteOf ValueType.deletion.code).val = ValueType.deletion.code := rfl
    have hnot : ¬ (byteOf ValueType.deletion.code).val = ValueType.value.code := by decide
    rw [Update.encode, List.cons_append, iterateLoop, if_neg hnot, if_pos htag]
    split
    · next h => simp [hkey] at h
    · next h =>
      obtain ⟨rfl, rfl⟩ := Prod.mk.inj (Option.some.inj (hkey.symm.trans h))
      rfl

theorem iterateLoop_updates (handler : Handler σ) (us : List Update) (hus : ∀ u ∈ us, u.Sized)
    (found : ℕ) (s : σ) :
    iterateLoop handler found (us.flatMap Update.encode) s =
      (none, found + us.length, us.foldl (Update.handle handler) s) := by
  induction us generalizing found s with
  | nil => simp [iterateLoop]
  | cons u us ih =>
    have htail := ih (fun v hv => hus v (List.mem_cons_of_mem u hv)) (found + 1)
      (u.handle handler s)
    rw [List.flatMap_cons, iterateLoop_encode handler found u _ s (hus u List.mem_cons_self),
      htail, List.foldl_cons, List.length_cons]
    congr 2
    omega

theorem image_length (seq : ℕ) (us : List Update) :
    (image seq us).length = kHeader + (us.flatMap Update.encode).length := by
  simp only [image, kHeader, List.length_append, encodeFixed64_length, encodeFixed32_length]
  omega

theorem image_drop_eight (seq : ℕ) (us : List Update) :
    (image seq us).drop 8 = encodeFixed32 us.length ++ us.flatMap Update.encode :=
  List.drop_left' (encodeFixed64_length seq)

theorem image_drop_header (seq : ℕ) (us : List Update) :
    (image seq us).drop kHeader = us.flatMap Update.encode := by
  have hsplit : kHeader = 8 + 4 := rfl
  rw [hsplit, ← List.drop_drop, image_drop_eight]
  exact List.drop_left' (encodeFixed32_length us.length)

theorem Carries.count {b : WriteBatch} {us : List Update} (h : b.Carries us)
    (hus : us.length < 2 ^ 31) : b.count = us.length := by
  obtain ⟨seq, hrep⟩ := h
  rw [WriteBatch.count, hrep, image_drop_eight,
    decodeFixed32_encodeFixed32 _ _ (hus.trans (by norm_num)),
    cInt_of_bounds (by omega) (by omega)]

theorem sequence_image {b : WriteBatch} {seq : ℕ} {us : List Update} (h : b.rep = image seq us)
    (hseq : seq < 2 ^ 64) : b.sequence = seq := by
  rw [sequence, h, image, decodeFixed64_encodeFixed64 _ _ hseq]

theorem Carries.setSequence {b : WriteBatch} {us : List Update} (h : b.Carries us) (seq : ℕ) :
    (b.setSequence seq).rep = image seq us := by
  obtain ⟨old, hrep⟩ := h
  rw [WriteBatch.setSequence]
  dsimp only
  rw [hrep, image_drop_eight, image]

theorem clear_carries : clear.Carries [] := ⟨0, by decide +kernel⟩

theorem Carries.extended {b : WriteBatch} {us : List Update} (h : b.Carries us) (vs : List Update) :
    ((b.setCount (us.length + vs.length)).extended (vs.flatMap Update.encode)).Carries
      (us ++ vs) := by
  obtain ⟨seq, hrep⟩ := h
  refine ⟨seq, ?_⟩
  have hcount : encodeFixed32 (((us.length : ℤ) + vs.length) % 2 ^ 32).toNat =
      encodeFixed32 (us ++ vs).length := by
    have hmod : (((us.length : ℤ) + vs.length) % 2 ^ 32).toNat = (us ++ vs).length % 2 ^ 32 := by
      rw [List.length_append]
      omega
    rw [hmod]
    exact leBytes_mod 4 _ _ (Nat.mod_mod _ _)
  have htake : (image seq us).take 8 = encodeFixed64 seq :=
    List.take_left' (encodeFixed64_length seq)
  rw [WriteBatch.extended, setCount]
  dsimp only
  rw [hrep, image_drop_header, htake, hcount, image, List.flatMap_append]
  simp only [List.append_assoc]

theorem Carries.addTo {b : WriteBatch} {us : List Update} (h : b.Carries us)
    (hus : us.length < 2 ^ 31) (u : Update) : (u.addTo b).Carries (us ++ [u]) := by
  have hcount := h.count hus
  have hext := h.extended [u]
  cases u with
  | put key value =>
    rw [Update.addTo, put, hcount]
    simpa [Update.encode] using hext
  | delete key =>
    rw [Update.addTo, delete, hcount]
    simpa [Update.encode] using hext

theorem Carries.append {dst src : WriteBatch} {us vs : List Update} (hdst : dst.Carries us)
    (hsrc : src.Carries vs) (hus : us.length < 2 ^ 31) (hvs : vs.length < 2 ^ 31) :
    (dst.append src).Carries (us ++ vs) := by
  have hdata : src.rep.drop kHeader = vs.flatMap Update.encode := by
    obtain ⟨seq, hrep⟩ := hsrc
    rw [hrep, image_drop_header]
  rw [WriteBatch.append, hdst.count hus, hsrc.count hvs, hdata]
  exact hdst.extended vs

/-- The batch that a caller fills by one call for each update. -/
def filled (us : List Update) : WriteBatch := us.foldl Update.addTo clear

theorem filled_carries (us : List Update) (hus : us.length < 2 ^ 31) : (filled us).Carries us := by
  induction us using List.reverseRecOn with
  | nil => exact clear_carries
  | append_singleton us u ih =>
    rw [List.length_append, List.length_singleton] at hus
    rw [filled, List.foldl_append]
    exact (ih (by omega)).addTo (by omega) u

theorem foldl_inserter (us : List Update) (s : ℕ) (mem : MemTable) :
    (us.foldl (Update.handle memTableInserter) (s, mem)).2 = mem ++ entries s us := by
  induction us generalizing s mem with
  | nil => simp [entries]
  | cons u us ih =>
    have hstep : u.handle memTableInserter (s, mem) = ((s + 1) % 2 ^ 64, mem ++ [u.entry s]) := by
      cases u <;> rfl
    rw [List.foldl_cons, hstep, ih, entries_congr (Nat.mod_modEq (s + 1) (2 ^ 64)) us,
      List.append_assoc]
    rfl

/-- A batch is inserted whole, with consecutive sequence numbers. -/
theorem insertInto_image {b : WriteBatch} {seq : ℕ} {us : List Update} (h : b.rep = image seq us)
    (hus : ∀ u ∈ us, u.Sized) (hcount : us.length < 2 ^ 31) (hseq : seq < 2 ^ 64)
    (mem : MemTable) :
    b.insertInto mem = (none, mem ++ entries seq us) := by
  have hcarries : b.Carries us := ⟨seq, h⟩
  have hlen : ¬ b.rep.length < kHeader := not_lt.mpr b.header
  have hdata : b.rep.drop kHeader = us.flatMap Update.encode := by rw [h, image_drop_header]
  have hiter : b.iterate memTableInserter (b.sequence, mem) =
      (none, us.foldl (Update.handle memTableInserter) (seq, mem)) := by
    rw [iterate, if_neg hlen, hdata, iterateLoop_updates memTableInserter us hus,
      sequence_image h hseq]
    dsimp only
    rw [if_neg (by rw [hcarries.count hcount]; simp)]
  rw [insertInto, hiter]
  dsimp only
  rw [foldl_inserter us seq mem]

/-! ### Any string as a batch -/

/-- Updates one behind the other in front of the bytes `rest`. -/
inductive Parses : List Byte → List Update → List Byte → Prop
  | nil (rest : List Byte) : Parses rest [] rest
  | put {input key input' value input'' rest : List Byte} {us : List Update}
    (hkey : getLengthPrefixedSlice input = some (key, input'))
    (hvalue : getLengthPrefixedSlice input' = some (value, input''))
    (hrest : Parses input'' us rest) :
    Parses (byteOf ValueType.value.code :: input) (.put key value :: us) rest
  | delete {input key input' rest : List Byte} {us : List Update}
    (hkey : getLengthPrefixedSlice input = some (key, input'))
    (hrest : Parses input' us rest) :
    Parses (byteOf ValueType.deletion.code :: input) (.delete key :: us) rest

/-- Bytes that do not begin with an update, and the error they cause. -/
inductive Malformed : List Byte → String → Prop
  | putKey {input : List Byte} (hkey : getLengthPrefixedSlice input = none) :
    Malformed (byteOf ValueType.value.code :: input) "bad WriteBatch Put"
  | putValue {input key input' : List Byte}
    (hkey : getLengthPrefixedSlice input = some (key, input'))
    (hvalue : getLengthPrefixedSlice input' = none) :
    Malformed (byteOf ValueType.value.code :: input) "bad WriteBatch Put"
  | deleteKey {input : List Byte} (hkey : getLengthPrefixedSlice input = none) :
    Malformed (byteOf ValueType.deletion.code :: input) "bad WriteBatch Delete"
  | tag {tag : Byte} {input : List Byte} (hput : tag.val ≠ ValueType.value.code)
    (hdelete : tag.val ≠ ValueType.deletion.code) :
    Malformed (tag :: input) "unknown WriteBatch tag"

theorem eq_byteOf {tag : Byte} {n : ℕ} (h : tag.val = n) : tag = byteOf n := by
  subst h
  exact Fin.ext (Nat.mod_eq_of_lt tag.isLt).symm

/-- The loop hands the updates at the front to the handler, up to the end of the
input or to the first bytes that are none. -/
theorem iterateLoop_parses (handler : Handler σ) (found : ℕ) (input : List Byte) (s : σ) :
    ∃ us rest, Parses input us rest ∧
      ((rest = [] ∧ iterateLoop handler found input s =
          (none, found + us.length, us.foldl (Update.handle handler) s)) ∨
        ∃ error, Malformed rest error ∧ iterateLoop handler found input s =
          (some error, found + us.length + 1, us.foldl (Update.handle handler) s)) := by
  fun_induction iterateLoop handler found input s with
  | case1 found s => exact ⟨[], [], .nil _, .inl ⟨rfl, rfl⟩⟩
  | case2 found s tag input htag hkey =>
    rw [eq_byteOf htag]
    exact ⟨[], _, .nil _, .inr ⟨_, .putKey hkey, rfl⟩⟩
  | case3 found s tag input htag key input' hkey hvalue =>
    rw [eq_byteOf htag]
    exact ⟨[], _, .nil _, .inr ⟨_, .putValue hkey hvalue, rfl⟩⟩
  | case4 found s tag input htag key input' hkey value input'' hvalue h₁ h₂ ih =>
    obtain ⟨us, rest, hparses, hend⟩ := ih
    have hcount : found + 1 + us.length = found + (us.length + 1) := by omega
    rw [hcount] at hend
    rw [eq_byteOf htag]
    exact ⟨.put key value :: us, rest, .put hkey hvalue hparses, hend⟩
  | case5 found s tag input htag htag' hkey =>
    rw [eq_byteOf htag']
    exact ⟨[], _, .nil _, .inr ⟨_, .deleteKey hkey, rfl⟩⟩
  | case6 found s tag input htag htag' key input' hkey h₁ ih =>
    obtain ⟨us, rest, hparses, hend⟩ := ih
    have hcount : found + 1 + us.length = found + (us.length + 1) := by omega
    rw [hcount] at hend
    rw [eq_byteOf htag']
    exact ⟨.delete key :: us, rest, .delete hkey hparses, hend⟩
  | case7 found s tag input htag htag' =>
    exact ⟨[], _, .nil _, .inr ⟨_, .tag htag htag', rfl⟩⟩

/-- Whatever the bytes of a batch, `InsertInto` adds the updates at the front of them,
numbered from the batch's sequence number on, and its status says why it went no
further: the bytes behind them are no update, or there are none and the updates
are not as many as the header says. -/
theorem insertInto_any (b : WriteBatch) (mem : MemTable) :
    ∃ us rest, Parses (b.rep.drop kHeader) us rest ∧
      (b.insertInto mem).2 = mem ++ entries b.sequence us ∧
      ((rest = [] ∧ (b.insertInto mem).1 =
          if (us.length : ℤ) = b.count then none else some "WriteBatch has wrong count") ∨
        ∃ error, Malformed rest error ∧ (b.insertInto mem).1 = some error) := by
  have hlen : ¬ b.rep.length < kHeader := not_lt.mpr b.header
  obtain ⟨us, rest, hparses, hend⟩ := iterateLoop_parses memTableInserter 0
    (b.rep.drop kHeader) (b.sequence, mem)
  have hmem := foldl_inserter us b.sequence mem
  rw [Nat.zero_add] at hend
  refine ⟨us, rest, hparses, ?_⟩
  rw [insertInto, iterate, if_neg hlen]
  rcases hend with ⟨hrest, hloop⟩ | ⟨error, hbad, hloop⟩
  · rw [hloop]
    dsimp only
    by_cases hcount : (us.length : ℤ) = b.count
    · rw [if_neg (not_not.mpr hcount), if_pos hcount]
      exact ⟨hmem, .inl ⟨hrest, rfl⟩⟩
    · rw [if_pos hcount, if_neg hcount]
      exact ⟨hmem, .inl ⟨hrest, rfl⟩⟩
  · rw [hloop]
    exact ⟨hmem, .inr ⟨error, hbad, rfl⟩⟩

end WriteBatch

end FreqAnalysis.LevelDb
