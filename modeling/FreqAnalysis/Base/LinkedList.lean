import Mathlib.Data.List.Nodup
import Mathlib.Logic.Function.Basic
import Mathlib.Tactic.SplitIfs

/-!
# Doubly linked lists in a node store

Nodes with `next` and `front` pointers live in a store indexed by addresses; a
null pointer is `none` and a freed address holds nothing. The operations return
`none` where C code would dereference a null or freed pointer, or where a walk
exceeds its fuel. `Seg st p l n` says that the store holds the nodes `l` (each
with its address), linked in that order, with `p` in front of the first node
and `n` behind the last one.
-/

namespace FreqAnalysis.Base

structure Link (α : Type) where
  data : α
  next : Option ℕ
  front : Option ℕ

abbrev Store (α : Type) := ℕ → Option (Link α)

namespace Store

variable {α : Type}

/-! ### Operations -/

def setNext (st : Store α) (p : ℕ) (n : Option ℕ) : Option (Store α) :=
  (st p).map fun nd => Function.update st p (some { nd with next := n })

def setFront (st : Store α) (p : ℕ) (f : Option ℕ) : Option (Store α) :=
  (st p).map fun nd => Function.update st p (some { nd with front := f })

def free (st : Store α) (p : ℕ) : Store α := Function.update st p none

/-- A new node `q` in front of `head`; the new head and back are returned. -/
def pushFront (st : Store α) (head back : Option ℕ) (q : ℕ) (x : α) :
    Option (Store α × Option ℕ × Option ℕ) :=
  let st1 := Function.update st q (some ⟨x, head, none⟩)
  match head with
  | none => some (st1, some q, some q)
  | some h => (setFront st1 h (some q)).map fun st2 => (st2, some q, back)

/-- `while (q->next != NULL) q = q->next`. -/
def lastFrom (st : Store α) : ℕ → ℕ → Option ℕ
  | 0, _ => none
  | fuel + 1, q => do
    let nd ← st q
    match nd.next with
    | none => some q
    | some r => lastFrom st fuel r

def pushBack (st : Store α) (fuel : ℕ) (head : Option ℕ) (q : ℕ) (x : α) :
    Option (Store α × Option ℕ) :=
  match head with
  | none => some (Function.update st q (some ⟨x, none, none⟩), some q)
  | some h => do
    let r ← lastFrom st fuel h
    let st1 ← setNext (Function.update st q (some ⟨x, none, some r⟩)) r (some q)
    some (st1, some h)

/-- `if (f != NULL) f->next = n; else head = n;` -/
def bypassNext (st : Store α) (head f n : Option ℕ) : Option (Store α × Option ℕ) :=
  match f with
  | some a => (setNext st a n).map fun st1 => (st1, head)
  | none => some (st, n)

def bypassFront (st : Store α) (back n f : Option ℕ) : Option (Store α × Option ℕ) :=
  match n with
  | some c => (setFront st c f).map fun st1 => (st1, back)
  | none => some (st, f)

/-- Takes node `p` out of its list, without freeing it. -/
def unlink (st : Store α) (head back : Option ℕ) (p : ℕ) :
    Option (Store α × Option ℕ × Option ℕ) := do
  let t ← st p
  let (st1, head1) ← bypassNext st head t.front t.next
  let (st2, back1) ← bypassFront st1 back t.next t.front
  some (st2, head1, back1)

def findFrom (st : Store α) (test : α → Option Bool) : ℕ → Option ℕ → Option (Option ℕ)
  | _, none => some none
  | 0, some _ => none
  | fuel + 1, some q => do
    let nd ← st q
    if ← test nd.data then some (some q) else findFrom st test fuel nd.next

def walk (st : Store α) : ℕ → Option ℕ → Option (List α)
  | _, none => some []
  | 0, some _ => none
  | fuel + 1, some q => do
    let nd ← st q
    let rest ← walk st fuel nd.next
    some (nd.data :: rest)

/-! ### Segments -/

/-- Address of the first node, `n` when there is none. -/
def headAddr : List (ℕ × α) → Option ℕ → Option ℕ
  | [], n => n
  | (a, _) :: _, _ => some a

def lastAddr : Option ℕ → List (ℕ × α) → Option ℕ
  | p, [] => p
  | _, (a, _) :: l => lastAddr (some a) l

def Seg (st : Store α) : Option ℕ → List (ℕ × α) → Option ℕ → Prop
  | _, [], _ => True
  | p, (a, x) :: l, n => st a = some ⟨x, headAddr l n, p⟩ ∧ Seg st (some a) l n

def addrs (l : List (ℕ × α)) : List ℕ := l.map Prod.fst

@[simp] theorem headAddr_cons (a : ℕ) (x : α) (l : List (ℕ × α)) (n : Option ℕ) :
    headAddr ((a, x) :: l) n = some a := rfl

theorem headAddr_append (l1 l2 : List (ℕ × α)) (n : Option ℕ) :
    headAddr (l1 ++ l2) n = headAddr l1 (headAddr l2 n) := by
  cases l1 with
  | nil => rfl
  | cons e l1 => rfl

theorem lastAddr_append (p : Option ℕ) (l1 l2 : List (ℕ × α)) :
    lastAddr p (l1 ++ l2) = lastAddr (lastAddr p l1) l2 := by
  induction l1 generalizing p with
  | nil => rfl
  | cons e l1 ih => exact ih (some e.1)

theorem lastAddr_concat (p : Option ℕ) (l : List (ℕ × α)) (b : ℕ) (y : α) :
    lastAddr p (l ++ [(b, y)]) = some b := by
  rw [lastAddr_append]
  rfl

theorem lastAddr_of_ne_nil (p q : Option ℕ) (l : List (ℕ × α)) (h : l ≠ []) :
    lastAddr p l = lastAddr q l := by
  cases l with
  | nil => exact absurd rfl h
  | cons e l => rfl

theorem seg_append (st : Store α) (p : Option ℕ) (l1 l2 : List (ℕ × α)) (n : Option ℕ) :
    Seg st p (l1 ++ l2) n ↔ Seg st p l1 (headAddr l2 n) ∧ Seg st (lastAddr p l1) l2 n := by
  induction l1 generalizing p with
  | nil => simp [Seg, lastAddr]
  | cons e l1 ih =>
    obtain ⟨a, x⟩ := e
    simp only [List.cons_append, Seg, lastAddr, headAddr_append, ih (some a), and_assoc]

theorem Seg.congr {st st' : Store α} {p : Option ℕ} {l : List (ℕ × α)} {n : Option ℕ}
    (h : Seg st p l n) (hst : ∀ a ∈ addrs l, st' a = st a) : Seg st' p l n := by
  induction l generalizing p with
  | nil => trivial
  | cons e l ih =>
    obtain ⟨a, x⟩ := e
    have ha : st' a = st a := hst a (List.mem_cons_self ..)
    exact ⟨ha.trans h.1, ih h.2 (fun b hb => hst b (List.mem_cons_of_mem _ hb))⟩

theorem Seg.update {st : Store α} {p : Option ℕ} {l : List (ℕ × α)} {n : Option ℕ}
    (h : Seg st p l n) (a : ℕ) (nd : Option (Link α)) (ha : a ∉ addrs l) :
    Seg (Function.update st a nd) p l n := by
  apply h.congr
  intro b hb
  have hba : b ≠ a := fun h0 => ha (h0 ▸ hb)
  exact Function.update_of_ne hba nd st

theorem Seg.at_node {st : Store α} {p : Option ℕ} {l1 l2 : List (ℕ × α)} {a : ℕ} {x : α}
    {n : Option ℕ} (h : Seg st p (l1 ++ (a, x) :: l2) n) :
    st a = some ⟨x, headAddr l2 n, lastAddr p l1⟩ :=
  ((seg_append st p l1 ((a, x) :: l2) n).mp h).2.1

theorem Seg.data_at {st : Store α} {p : Option ℕ} {l : List (ℕ × α)} {n : Option ℕ}
    (h : Seg st p l n) {a : ℕ} {x : α} (hmem : (a, x) ∈ l) :
    ∃ nx fr, st a = some ⟨x, nx, fr⟩ := by
  obtain ⟨l1, l2, rfl⟩ := List.append_of_mem hmem
  exact ⟨_, _, h.at_node⟩

theorem Seg.setNext_last {st : Store α} {p : Option ℕ} {l : List (ℕ × α)} {b : ℕ} {y : α}
    {n : Option ℕ} (h : Seg st p (l ++ [(b, y)]) n) (hb : b ∉ addrs l) (n' : Option ℕ) :
    setNext st b n' = some (Function.update st b (some ⟨y, n', lastAddr p l⟩)) ∧
      Seg (Function.update st b (some ⟨y, n', lastAddr p l⟩)) p (l ++ [(b, y)]) n' := by
  have hat : st b = some ⟨y, n, lastAddr p l⟩ := h.at_node
  refine ⟨by simp [setNext, hat], ?_⟩
  obtain ⟨h1, _⟩ := (seg_append st p l [(b, y)] n).mp h
  refine (seg_append _ p l [(b, y)] n').mpr ⟨h1.update b _ hb, ?_, trivial⟩
  simp [headAddr]

theorem Seg.setFront_head {st : Store α} {p : Option ℕ} {l : List (ℕ × α)} {c : ℕ} {z : α}
    {n : Option ℕ} (h : Seg st p ((c, z) :: l) n) (hc : c ∉ addrs l) (p' : Option ℕ) :
    setFront st c p' = some (Function.update st c (some ⟨z, headAddr l n, p'⟩)) ∧
      Seg (Function.update st c (some ⟨z, headAddr l n, p'⟩)) p' ((c, z) :: l) n := by
  have hat : st c = some ⟨z, headAddr l n, p⟩ := h.1
  refine ⟨by simp [setFront, hat], ?_, h.2.update c _ hc⟩
  simp

/-! ### What the operations do to a list -/

theorem ne_none_of_free {st : Store α} {p a : ℕ} (h : st.free p a ≠ none) :
    a ≠ p ∧ st a ≠ none := by
  by_cases hap : a = p
  · rw [hap, free, Function.update_self] at h
    exact absurd rfl h
  · rw [free, Function.update_of_ne hap] at h
    exact ⟨hap, h⟩

theorem mem_addrs_middle {l1 l2 : List (ℕ × α)} {e : ℕ × α} {a : ℕ}
    (h : a ∈ addrs (l1 ++ e :: l2)) : a = e.1 ∨ a ∈ addrs (l1 ++ l2) := by
  simp only [addrs, List.map_append, List.map_cons, List.mem_append, List.mem_cons] at h ⊢
  tauto

theorem pushFront_spec (st : Store α) (l : List (ℕ × α)) (q : ℕ) (x : α)
    (h : Seg st none l none) (hnd : (addrs l).Nodup) (hq : q ∉ addrs l) :
    ∃ st', pushFront st (headAddr l none) (lastAddr none l) q x
        = some (st', headAddr ((q, x) :: l) none, lastAddr none ((q, x) :: l)) ∧
      Seg st' none ((q, x) :: l) none ∧ ∀ a, a ∉ addrs l → a ≠ q → st' a = st a := by
  cases l with
  | nil =>
    refine ⟨_, rfl, ⟨by simp [headAddr], trivial⟩, ?_⟩
    intro a _ haq
    exact Function.update_of_ne haq _ _
  | cons e l =>
    obtain ⟨c, z⟩ := e
    have hcl : c ∉ addrs l := (List.nodup_cons.mp hnd).1
    have hcq : c ≠ q := fun h0 => hq (h0 ▸ List.mem_cons_self ..)
    have h1 : Seg (Function.update st q (some ⟨x, some c, none⟩)) none ((c, z) :: l) none :=
      h.update q _ hq
    obtain ⟨hset, hseg⟩ := h1.setFront_head hcl (some q)
    refine ⟨_, by simp [pushFront, headAddr, hset, lastAddr], ⟨?_, hseg⟩, ?_⟩
    · rw [Function.update_of_ne (Ne.symm hcq)]
      simp [headAddr]
    · intro a ha haq
      have hac : a ≠ c := fun h0 => ha (h0 ▸ List.mem_cons_self ..)
      rw [Function.update_of_ne hac, Function.update_of_ne haq]

theorem lastFrom_spec (st : Store α) (p : Option ℕ) (l : List (ℕ × α)) (a : ℕ) (x : α)
    (h : Seg st p ((a, x) :: l) none) (fuel : ℕ) (hf : l.length < fuel) :
    lastFrom st fuel a = lastAddr p ((a, x) :: l) := by
  induction l generalizing p a x fuel with
  | nil =>
    obtain ⟨fuel, rfl⟩ : ∃ k, fuel = k + 1 := ⟨fuel - 1, by simp at hf; omega⟩
    simp [lastFrom, h.1, headAddr, lastAddr]
  | cons e l ih =>
    obtain ⟨b, y⟩ := e
    obtain ⟨fuel, rfl⟩ : ∃ k, fuel = k + 1 := ⟨fuel - 1, by omega⟩
    have hrec := ih (some a) b y h.2 fuel (by simpa using hf)
    simp only [lastFrom, h.1, headAddr, Option.bind_eq_bind, Option.bind_some, hrec]
    rfl

theorem pushBack_spec (st : Store α) (l : List (ℕ × α)) (q : ℕ) (x : α) (fuel : ℕ)
    (h : Seg st none l none) (hnd : (addrs l).Nodup) (hq : q ∉ addrs l) (hf : l.length ≤ fuel) :
    ∃ st', pushBack st fuel (headAddr l none) q x
        = some (st', headAddr (l ++ [(q, x)]) none) ∧
      Seg st' none (l ++ [(q, x)]) none ∧ ∀ a, a ∉ addrs l → a ≠ q → st' a = st a := by
  rcases List.eq_nil_or_concat l with rfl | ⟨m, ⟨b, y⟩, rfl⟩
  · refine ⟨_, rfl, ⟨by simp [headAddr], trivial⟩, ?_⟩
    intro a _ haq
    exact Function.update_of_ne haq _ _
  · rw [List.concat_eq_append] at *
    have hbm : b ∉ addrs m := by
      have hnd' : (addrs m ++ [b]).Nodup := by simpa [addrs] using hnd
      have hdis := (List.nodup_append.mp hnd').2.2
      exact fun hb => hdis b hb b (by simp) rfl
    have hbq : b ≠ q := fun h0 => hq (by rw [← h0]; simp [addrs])
    obtain ⟨c, z, t, hct⟩ : ∃ c z t, m ++ [(b, y)] = (c, z) :: t := by
      cases m with
      | nil => exact ⟨b, y, [], rfl⟩
      | cons e m => exact ⟨e.1, e.2, m ++ [(b, y)], rfl⟩
    have hlast : lastFrom st fuel c = some b := by
      have hlen : t.length < fuel := by
        have := congrArg List.length hct
        simp only [List.length_append, List.length_cons, List.length_nil] at this hf
        omega
      rw [hct] at h
      rw [lastFrom_spec st none t c z h fuel hlen, ← hct, lastAddr_concat]
    have hhead : headAddr (m ++ [(b, y)]) none = some c := by
      rw [hct]
      rfl
    have h1 : Seg (Function.update st q (some ⟨x, none, some b⟩)) none (m ++ [(b, y)]) none :=
      h.update q _ hq
    obtain ⟨hset, hseg⟩ := h1.setNext_last hbm (some q)
    refine ⟨_, ?_, (seg_append _ none _ [(q, x)] none).mpr ⟨hseg, ?_, trivial⟩, ?_⟩
    · have hhead' : headAddr (m ++ [(b, y)] ++ [(q, x)]) none = some c := by
        rw [hct]
        rfl
      rw [hhead, hhead']
      simp only [pushBack, hlast, Option.bind_eq_bind, Option.bind_some, hset]
    · rw [Function.update_of_ne (Ne.symm hbq), lastAddr_concat]
      simp [headAddr]
    · intro a ha haq
      have hab : a ≠ b := fun h0 => ha (by rw [h0]; simp [addrs])
      rw [Function.update_of_ne hab, Function.update_of_ne haq]

theorem bypassNext_spec (st : Store α) (l : List (ℕ × α)) (n n' : Option ℕ)
    (h : Seg st none l n) (hnd : (addrs l).Nodup) :
    ∃ st', bypassNext st (headAddr l n) (lastAddr none l) n' = some (st', headAddr l n') ∧
      Seg st' none l n' ∧ ∀ b, b ∉ addrs l → st' b = st b := by
  rcases List.eq_nil_or_concat l with rfl | ⟨m, ⟨f, y⟩, rfl⟩
  · exact ⟨st, rfl, trivial, fun _ _ => rfl⟩
  · rw [List.concat_eq_append] at *
    have hfm : f ∉ addrs m := by
      have hnd' : (addrs m ++ [f]).Nodup := by simpa [addrs] using hnd
      exact fun hf => (List.nodup_append.mp hnd').2.2 f hf f (by simp) rfl
    obtain ⟨hset, hseg⟩ := h.setNext_last hfm n'
    have hhead : headAddr (m ++ [(f, y)]) n = headAddr (m ++ [(f, y)]) n' := by
      cases m <;> rfl
    refine ⟨_, ?_, hseg, ?_⟩
    · rw [lastAddr_concat, hhead, bypassNext, hset]
      rfl
    · intro b hb
      exact Function.update_of_ne (fun h0 => hb (by rw [h0]; simp [addrs])) _ _

theorem bypassFront_spec (st : Store α) (p p' : Option ℕ) (l : List (ℕ × α)) (back : Option ℕ)
    (h : Seg st p l none) (hnd : (addrs l).Nodup) :
    ∃ st', bypassFront st back (headAddr l none) p' = some (st', if l = [] then p' else back) ∧
      Seg st' p' l none ∧ ∀ b, b ∉ addrs l → st' b = st b := by
  cases l with
  | nil => exact ⟨st, rfl, trivial, fun _ _ => rfl⟩
  | cons e l =>
    obtain ⟨c, z⟩ := e
    have hcl : c ∉ addrs l := (List.nodup_cons.mp hnd).1
    obtain ⟨hset, hseg⟩ := h.setFront_head hcl p'
    refine ⟨_, ?_, hseg, ?_⟩
    · rw [headAddr_cons, bypassFront, hset]
      rfl
    · intro b hb
      exact Function.update_of_ne (fun h0 => hb (by rw [h0]; exact List.mem_cons_self ..)) _ _

/-- Unlinking a node keeps the rest of its list. `back` need not be the last
node: a list without a back pointer passes anything. -/
theorem unlink_spec (st : Store α) (l1 l2 : List (ℕ × α)) (a : ℕ) (x : α) (back : Option ℕ)
    (h : Seg st none (l1 ++ (a, x) :: l2) none) (hnd : (addrs (l1 ++ (a, x) :: l2)).Nodup) :
    ∃ st', unlink st (headAddr (l1 ++ (a, x) :: l2) none) back a
        = some (st', headAddr (l1 ++ l2) none, if l2 = [] then lastAddr none l1 else back) ∧
      Seg st' none (l1 ++ l2) none ∧ ∀ b, b ∉ addrs (l1 ++ l2) → st' b = st b := by
  have hat := h.at_node
  obtain ⟨hseg1, -, hseg2⟩ := (seg_append st none l1 ((a, x) :: l2) none).mp h
  have hnd' : (addrs l1 ++ a :: addrs l2).Nodup := by simpa [addrs] using hnd
  obtain ⟨hnd1, hnd2, hdis⟩ := List.nodup_append.mp hnd'
  have hdis12 : ∀ b ∈ addrs l1, b ∉ addrs l2 :=
    fun b hb hb' => hdis b hb b (List.mem_cons_of_mem _ hb') rfl
  -- the pointer into the node from the left, then the one from the right
  obtain ⟨st1, hst1, hs1, hframe1⟩ :=
    bypassNext_spec st l1 (some a) (headAddr l2 none) hseg1 hnd1
  have hs2 : Seg st1 (some a) l2 none :=
    hseg2.congr fun b hb => hframe1 b fun hb' => hdis12 b hb' hb
  obtain ⟨st2, hst2, hs3, hframe2⟩ :=
    bypassFront_spec st1 (some a) (lastAddr none l1) l2 back hs2 (List.nodup_cons.mp hnd2).2
  have hhead : headAddr (l1 ++ (a, x) :: l2) none = headAddr l1 (some a) := headAddr_append ..
  refine ⟨st2, ?_, (seg_append st2 none l1 l2 none).mpr ⟨?_, hs3⟩, ?_⟩
  · rw [unlink, hat, hhead, headAddr_append l1 l2]
    simp only [Option.bind_eq_bind, Option.bind_some, hst1, hst2]
  · exact hs1.congr fun b hb => hframe2 b (hdis12 b hb)
  · intro b hb
    have hb12 : b ∉ addrs l1 ∧ b ∉ addrs l2 := by simpa [addrs] using hb
    rw [hframe2 b hb12.2, hframe1 b hb12.1]

theorem lastAddr_unlink (l1 l2 : List (ℕ × α)) (a : ℕ) (x : α) :
    (if l2 = [] then lastAddr none l1 else lastAddr none (l1 ++ (a, x) :: l2))
      = lastAddr none (l1 ++ l2) := by
  split_ifs with h
  · rw [h, List.append_nil]
  · rw [lastAddr_append, lastAddr_append]
    exact lastAddr_of_ne_nil _ _ l2 h

theorem findFrom_spec (st : Store α) (test : α → Option Bool) (t : α → Bool)
    (p : Option ℕ) (l : List (ℕ × α)) (h : Seg st p l none)
    (ht : ∀ e ∈ l, test e.2 = some (t e.2)) (fuel : ℕ) (hf : l.length ≤ fuel) :
    findFrom st test fuel (headAddr l none)
      = some ((l.find? (fun e => t e.2)).map Prod.fst) := by
  induction l generalizing p fuel with
  | nil => cases fuel <;> rfl
  | cons e l ih =>
    obtain ⟨a, x⟩ := e
    obtain ⟨fuel, rfl⟩ : ∃ k, fuel = k + 1 := ⟨fuel - 1, by simp at hf; omega⟩
    have hx : test x = some (t x) := ht (a, x) (List.mem_cons_self ..)
    have hrec := ih (some a) h.2 (fun e he => ht e (List.mem_cons_of_mem _ he)) fuel
      (by simpa using hf)
    simp only [headAddr_cons, findFrom, h.1, hx, Option.bind_eq_bind, Option.bind_some]
    cases htx : t x with
    | true => simp [htx]
    | false => simp [htx, hrec]

theorem walk_spec (st : Store α) (p : Option ℕ) (l : List (ℕ × α)) (h : Seg st p l none)
    (fuel : ℕ) (hf : l.length ≤ fuel) :
    walk st fuel (headAddr l none) = some (l.map Prod.snd) := by
  induction l generalizing p fuel with
  | nil => cases fuel <;> rfl
  | cons e l ih =>
    obtain ⟨a, x⟩ := e
    obtain ⟨fuel, rfl⟩ : ∃ k, fuel = k + 1 := ⟨fuel - 1, by simp at hf; omega⟩
    have hrec := ih (some a) h.2 fuel (by simpa using hf)
    simp [walk, h.1, hrec]

end Store
end FreqAnalysis.Base
