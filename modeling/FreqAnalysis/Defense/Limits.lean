import FreqAnalysis.Defense.Segment

/-!
# The segment rule against its documentation

The comments and the README give three numbers for a segment: 512 KB at least,
2 MB at most, 1 MB on average, and derive the average from a divisor of 64: the
six low bits of the last fingerprint byte are to be ones. The code differs in
both respects. Shifting the promoted byte left and right again drops no bit, so
only the byte `0x3f` ends a segment; and `2<<19` and `2<<21` are 1 MB and 4 MB.
-/

namespace FreqAnalysis.Defense
open Base

/-! ### The divisor rule -/

def lowSixOnes (h : Fp) : Prop := (lastByte h).val % 64 = 63

instance (h : Fp) : Decidable (lowSixOnes h) := inferInstanceAs (Decidable (_ = _))

/-- The rule that the README's recipes describe, on exact sums. -/
def divisorRule (cur : List Node) (e : Node) : Option Cause :=
  if total cur + e.size > segMax then some .size
  else if segMin ≤ total cur ∧ lowSixOnes e.key then some .fingerprint
  else none

theorem lowSixOnes_of_atBoundary {h : Fp} (hb : atBoundary h = true) : lowSixOnes h := by
  rw [lowSixOnes, (atBoundary_iff h).mp hb]
  rfl

theorem divisorRule_open_lt {trace : List Node} (h : ∀ e ∈ trace, e.size < 2 ^ 31) :
    total (Cut.openSeg divisorRule [] trace) < 2 ^ 31 := by
  refine Cut.openSeg_invariant (P := fun cur => total cur < 2 ^ 31)
    (Q := fun e => e.size < 2 ^ 31) ?_ ?_ (by decide) h
  · intro e he
    rwa [total_singleton]
  · intro cur e _ _ hrule
    have hle : total cur + e.size ≤ segMax := by
      unfold divisorRule at hrule
      split_ifs at hrule
      omega
    rw [total_concat]
    exact lt_of_le_of_lt hle (by decide)

theorem segRule_isSome_eq_iff {cur : List Node} {e : Node} (hcur : total cur < 2 ^ 31)
    (he : e.size < 2 ^ 31) :
    (segRule cur e).isSome = (divisorRule cur e).isSome ↔
      (segMin ≤ total cur → total cur + e.size ≤ segMax → lowSixOnes e.key →
        lastByte e.key = 0x3f) := by
  have hlow := lowSixOnes_of_atBoundary (h := e.key)
  rw [segRule_eq (by omega), divisorRule, ← atBoundary_iff]
  by_cases hmax : total cur + e.size > segMax
  · simp [hmax]
  · rw [if_neg hmax, if_neg hmax]
    by_cases hmin : segMin ≤ total cur
    · by_cases hb : atBoundary e.key = true
      · simp [hmin, hb, hlow hb]
      · by_cases hl : lowSixOnes e.key
        · simp [hmin, hb, hl]
          omega
        · simp [hb, hl]
    · simp [hmin]

/-- The loop cuts a trace like the divisor rule exactly when the chunks at which
that rule ends a segment by the fingerprint all end in `0x3f`. -/
theorem segments_eq_divisor_iff (trace : List Node) (h : ∀ e ∈ trace, e.size < 2 ^ 31) :
    segments trace = Cut.segs divisorRule [] trace ↔
      ∀ pre e post, trace = pre ++ e :: post →
        segMin ≤ total (Cut.openSeg divisorRule [] pre) →
        total (Cut.openSeg divisorRule [] pre) + e.size ≤ segMax →
        lowSixOnes e.key → lastByte e.key = 0x3f := by
  rw [segments, Cut.segs_eq_iff]
  refine forall_congr' fun pre => forall_congr' fun e => forall_congr' fun post => ?_
  refine imp_congr_right fun htrace => ?_
  have hpre : ∀ a ∈ pre, a.size < 2 ^ 31 := by
    intro a ha
    exact h a (by rw [htrace]; exact List.mem_append_left _ ha)
  have he : e.size < 2 ^ 31 := by
    exact h e (by rw [htrace]; exact List.mem_append_right _ (List.mem_cons_self ..))
  exact segRule_isSome_eq_iff (divisorRule_open_lt hpre) he

theorem segments_eq_divisor_boundary :
    segments [⟨.filled 0, 2 ^ 20⟩, ⟨.filled 0x3f, 1⟩]
      = Cut.segs divisorRule [] [⟨.filled 0, 2 ^ 20⟩, ⟨.filled 0x3f, 1⟩] := by
  refine (segments_eq_divisor_iff _ (by decide)).mpr ?_
  intro pre e post htrace _ _ hlow
  have hall : ∀ e ∈ [(⟨.filled 0, 2 ^ 20⟩ : Node), ⟨.filled 0x3f, 1⟩],
      lowSixOnes e.key → lastByte e.key = 0x3f := by
    decide
  exact hall e (by rw [htrace]; simp) hlow

/-- After 1 MB the rule ends the segment at a chunk that ends in `0x7f`, the code
does not. -/
theorem segments_ne_divisor :
    segments [⟨.filled 0, 2 ^ 20⟩, ⟨.filled 0x7f, 1⟩]
      ≠ Cut.segs divisorRule [] [⟨.filled 0, 2 ^ 20⟩, ⟨.filled 0x7f, 1⟩] := by
  decide

/-! ### The documented sizes -/

def docMin : ℕ := 512 * 1024

def docMax : ℕ := 2 * 1024 * 1024

def labelled (trace : List Node) : List (List Node × Option Cause) := Cut.cuts segRule [] trace

/-- A boundary chunk arrived when the segment had reached 512 KB, and was
queued. -/
def Missed (seg : List Node) : Prop :=
  ∃ pre e post, seg = pre ++ e :: post ∧ docMin ≤ total pre ∧ atBoundary e.key = true

/-- The limits of the README for a segment and what closed it. -/
def WithinLimits (s : List Node × Option Cause) : Prop :=
  total s.1 ≤ docMax ∧ (s.2 = some .fingerprint → docMin ≤ total s.1 ∧ ¬ Missed s.1)

def KeepsDocumentedSizes (trace : List Node) : Prop := ∀ s ∈ labelled trace, WithinLimits s

/-- The rule with the documented limits, for the code's own boundary chunks. -/
def docRule (cur : List Node) (e : Node) : Option Cause :=
  if total cur + e.size > docMax then some .size
  else if docMin ≤ total cur ∧ atBoundary e.key = true then some .fingerprint
  else none

theorem not_missed_singleton (e : Node) : ¬ Missed [e] := by
  rintro ⟨pre, a, post, heq, hpre, -⟩
  cases pre with
  | nil => exact absurd hpre (by decide)
  | cons b pre =>
    have hlen := congrArg List.length heq
    simp only [List.length_cons, List.length_nil, List.length_append] at hlen
    omega

theorem missed_concat (cur : List Node) (e : Node) :
    Missed (cur ++ [e]) ↔ Missed cur ∨ (docMin ≤ total cur ∧ atBoundary e.key = true) := by
  constructor
  · rintro ⟨pre, a, post, heq, hpre, ha⟩
    rcases List.eq_nil_or_concat post with rfl | ⟨post', b, rfl⟩
    · obtain ⟨rfl, hlast⟩ := List.append_inj' heq rfl
      obtain ⟨rfl, -⟩ := List.cons.inj hlast
      exact Or.inr ⟨hpre, ha⟩
    · rw [List.concat_eq_append, ← List.cons_append, ← List.append_assoc] at heq
      obtain ⟨rfl, -⟩ := List.append_inj' heq rfl
      exact Or.inl ⟨pre, a, post', rfl, hpre, ha⟩
  · rintro (⟨pre, a, post, rfl, hpre, ha⟩ | ⟨hcur, he⟩)
    · exact ⟨pre, a, post ++ [e], by simp, hpre, ha⟩
    · exact ⟨cur, e, [], rfl, hcur, he⟩

theorem segRule_of_le_docMax {cur : List Node} {e : Node} (hcur : total cur ≤ docMax)
    (he : e.size ≤ docMax) :
    segRule cur e
      = if segMin ≤ total cur ∧ atBoundary e.key = true then some .fingerprint else none := by
  -- twice the documented limit is not above the limit of the code
  have hdoc : docMax + docMax ≤ segMax := by decide
  have hmax : segMax < 2 ^ 64 := by decide
  rw [segRule_eq (by omega), if_neg (by omega)]

theorem not_withinLimits_of_lt {cur : List Node} (h : docMax < total cur) (l : List Node) :
    ¬ ∀ s ∈ Cut.cuts segRule cur l, WithinLimits s := by
  intro hall
  obtain ⟨more, rest, hsegs⟩ := Cut.segs_head segRule cur l
  have hmem : cur ++ more ∈ (Cut.cuts segRule cur l).map Prod.fst := by
    rw [← Cut.segs, hsegs]
    exact List.mem_cons_self ..
  obtain ⟨s, hs, heq⟩ := List.mem_map.mp hmem
  have hle := (hall s hs).1
  rw [heq, total_append] at hle
  omega

theorem withinLimits_fingerprint_iff {cur : List Node} (hcur : total cur ≤ docMax)
    (hmin : segMin ≤ total cur) : WithinLimits (cur, some .fingerprint) ↔ ¬ Missed cur := by
  have hdoc : docMin ≤ total cur := le_trans (by decide) hmin
  simp [WithinLimits, hcur, hdoc]

/-- What may follow when a segment of `size` bytes has missed its boundary: it ends with
the trace. -/
def EndsOpen (size : ℕ) (l : List Node) : Prop :=
  size + total l ≤ docMax ∧
    ∀ pre e post, l = pre ++ e :: post → atBoundary e.key = true → size + total pre < segMin

/-- At a chunk that arrives when the documented rule has `size` bytes open. -/
def HarmlessAt (size : ℕ) (e : Node) (post : List Node) : Prop :=
  (docMax < size + e.size → segMin ≤ size ∧ atBoundary e.key = true) ∧
    (docMin ≤ size → size < segMin → atBoundary e.key = true → EndsOpen (size + e.size) post)

theorem total_openSeg_le (cur l : List Node) :
    total (Cut.openSeg docRule cur l) ≤ total cur + total l := by
  induction l generalizing cur with
  | nil => exact Nat.le_add_right ..
  | cons e l ih =>
    cases h : docRule cur e with
    | none =>
      have := ih (cur ++ [e])
      rw [Cut.openSeg_cons_none h, total_cons]
      rw [total_concat] at this
      omega
    | some cause =>
      have := ih [e]
      rw [Cut.openSeg_cons_some h, total_cons]
      rw [total_singleton] at this
      omega

theorem endsOpen_cons {size : ℕ} {e : Node} {l : List Node} :
    EndsOpen size (e :: l) ↔
      (atBoundary e.key = true → size < segMin) ∧ EndsOpen (size + e.size) l := by
  rw [EndsOpen, EndsOpen, forall_split_cons, total_cons, ← Nat.add_assoc]
  simp only [total_nil, Nat.add_zero, total_cons, ← Nat.add_assoc]
  tauto

/-- A segment that has missed its boundary keeps the limits only as the last one. -/
theorem withinLimits_missed_iff (cur l : List Node) (hcur : total cur ≤ docMax)
    (hmissed : Missed cur) (hl : ∀ e ∈ l, e.size ≤ docMax) :
    (∀ s ∈ Cut.cuts segRule cur l, WithinLimits s) ↔ EndsOpen (total cur) l := by
  induction l generalizing cur with
  | nil => simp [Cut.cuts, WithinLimits, EndsOpen, hcur]
  | cons e l ih =>
    have he : e.size ≤ docMax := hl e (List.mem_cons_self ..)
    have hl' : ∀ a ∈ l, a.size ≤ docMax := fun a ha => hl a (List.mem_cons_of_mem _ ha)
    have hrule := segRule_of_le_docMax hcur he
    rw [endsOpen_cons]
    by_cases hcut : segMin ≤ total cur ∧ atBoundary e.key = true
    · rw [if_pos hcut] at hrule
      rw [Cut.cuts_cons_some hrule, List.forall_mem_cons, withinLimits_fingerprint_iff hcur hcut.1]
      exact iff_of_false (fun h => h.1 hmissed) fun h => absurd (h.1 hcut.2) (by omega)
    · rw [if_neg hcut] at hrule
      rw [Cut.cuts_cons_none hrule]
      by_cases hfit : total cur + e.size ≤ docMax
      · have hrec := ih (cur ++ [e]) (by rwa [total_concat])
          ((missed_concat cur e).mpr (Or.inl hmissed)) hl'
        rw [total_concat] at hrec
        rw [hrec]
        have hopen : atBoundary e.key = true → total cur < segMin := fun hb => by
          by_contra hge
          exact hcut ⟨by omega, hb⟩
        exact ⟨fun h => ⟨hopen, h⟩, fun h => h.2⟩
      · have hlt : docMax < total (cur ++ [e]) := by
          rw [total_concat]
          omega
        refine iff_of_false (not_withinLimits_of_lt hlt l) fun h => ?_
        have hle := h.2.1
        omega

/-- The documented rule finds nothing in what follows a harmless miss. -/
theorem harmless_of_endsOpen {size : ℕ} {cur l : List Node} (hopen : EndsOpen size l)
    (hcur : total cur ≤ size) (pre : List Node) (e : Node) (post : List Node)
    (hl : l = pre ++ e :: post) : HarmlessAt (total (Cut.openSeg docRule cur pre)) e post := by
  have hle := total_openSeg_le cur pre
  have hfit := hopen.1
  rw [hl, total_append, total_cons] at hfit
  refine ⟨fun hbig => absurd hbig (by omega), fun _ _ hb => ⟨by omega, ?_⟩⟩
  intro pre' b post' hpost hbound
  have hbefore := hopen.2 (pre ++ e :: pre') b post' (by rw [hl, hpost]; simp) hbound
  rw [total_append, total_cons] at hbefore
  omega

theorem withinLimits_iff (cur l : List Node) (hcur : total cur ≤ docMax) (hmissed : ¬ Missed cur)
    (hl : ∀ e ∈ l, e.size ≤ docMax) :
    (∀ s ∈ Cut.cuts segRule cur l, WithinLimits s) ↔
      ∀ pre e post, l = pre ++ e :: post →
        HarmlessAt (total (Cut.openSeg docRule cur pre)) e post := by
  induction l generalizing cur with
  | nil => simp [Cut.cuts, WithinLimits, hcur]
  | cons e l ih =>
    have he : e.size ≤ docMax := hl e (List.mem_cons_self ..)
    have hl' : ∀ a ∈ l, a.size ≤ docMax := fun a ha => hl a (List.mem_cons_of_mem _ ha)
    have hrule := segRule_of_le_docMax hcur he
    rw [forall_split_cons, Cut.openSeg_nil]
    by_cases hcut : segMin ≤ total cur ∧ atBoundary e.key = true
    · -- both rules close the segment
      have hdoc : (docRule cur e).isSome = true := by
        have hmin : docMin ≤ total cur := le_trans (by decide) hcut.1
        rw [docRule]
        split_ifs with h1 h2
        · rfl
        · rfl
        · exact absurd ⟨hmin, hcut.2⟩ h2
      obtain ⟨cause, hcause⟩ := Option.isSome_iff_exists.mp hdoc
      have hhead : HarmlessAt (total cur) e l :=
        ⟨fun _ => hcut, fun _ hlt _ => absurd hlt (by omega)⟩
      rw [if_pos hcut] at hrule
      rw [Cut.cuts_cons_some hrule, List.forall_mem_cons, withinLimits_fingerprint_iff hcur hcut.1,
        ih [e] (by rwa [total_singleton]) (not_missed_singleton e) hl']
      simp only [Cut.openSeg_cons_some hcause, hmissed, hhead, not_false_iff, true_and]
    · rw [if_neg hcut] at hrule
      rw [Cut.cuts_cons_none hrule]
      by_cases hfit : total cur + e.size ≤ docMax
      · by_cases hmiss : docMin ≤ total cur ∧ atBoundary e.key = true
        · -- only the documented rule closes it
          have hlt : total cur < segMin := by
            by_contra hge
            exact hcut ⟨by omega, hmiss.2⟩
          have hdoc : docRule cur e = some .fingerprint := by
            rw [docRule, if_neg (by omega), if_pos hmiss]
          have htail := withinLimits_missed_iff (cur ++ [e]) l (by rwa [total_concat])
            ((missed_concat cur e).mpr (Or.inr hmiss)) hl'
          rw [total_concat] at htail
          rw [htail]
          simp only [Cut.openSeg_cons_some hdoc]
          constructor
          · intro hopen
            refine ⟨⟨fun hbig => absurd hbig (by omega), fun _ _ _ => hopen⟩, ?_⟩
            exact harmless_of_endsOpen hopen (by rw [total_singleton]; omega)
          · intro h
            exact h.1.2 hmiss.1 hlt hmiss.2
        · have hdoc : docRule cur e = none := by
            rw [docRule, if_neg (by omega), if_neg hmiss]
          have hnext : ¬ Missed (cur ++ [e]) := by
            rw [missed_concat]
            exact fun h => h.elim hmissed hmiss
          have hhead : HarmlessAt (total cur) e l :=
            ⟨fun hbig => absurd hbig (by omega), fun hmin _ hb => absurd ⟨hmin, hb⟩ hmiss⟩
          rw [ih (cur ++ [e]) (by rwa [total_concat]) hnext hl']
          simp only [Cut.openSeg_cons_none hdoc, hhead, true_and]
      · have hlt : docMax < total (cur ++ [e]) := by
          rw [total_concat]
          omega
        exact iff_of_false (not_withinLimits_of_lt hlt l) fun h => hcut (h.1.1 (by omega))

/-- Every segment keeps the documented sizes exactly when the documented rule, wherever a
chunk does not fit into its open segment of up to 2 MB, has 1 MB open and a boundary chunk
before it, and wherever it closes less than 1 MB at a boundary chunk, the trace goes on
within the limits without another one that the code would cut at. -/
theorem labelled_withinLimits_iff (trace : List Node) (h : ∀ e ∈ trace, e.size ≤ docMax) :
    KeepsDocumentedSizes trace ↔
      ∀ pre e post, trace = pre ++ e :: post →
        HarmlessAt (total (Cut.openSeg docRule [] pre)) e post :=
  withinLimits_iff [] trace (by decide) (by simp [Missed]) h

/-- Boundary chunks that do not fit into 2 MB find 1 MB open; the last segment misses its
boundary. -/
def harmlessTrace : List Node :=
  [⟨.filled 0, 2 ^ 20⟩, ⟨.filled 0x3f, 2 ^ 20 + 2 ^ 19⟩, ⟨.filled 0x3f, 2 ^ 19 + 2 ^ 18⟩,
    ⟨.filled 0x3f, 2 ^ 20⟩]

theorem labelled_withinLimits_short : KeepsDocumentedSizes harmlessTrace := by
  refine (labelled_withinLimits_iff harmlessTrace (by decide)).mpr ?_
  simp only [harmlessTrace, forall_split_cons]
  refine ⟨⟨by decide, fun h => absurd h (by decide)⟩,
    ⟨by decide, fun _ h => absurd h (by decide)⟩,
    ⟨by decide, fun _ h => absurd h (by decide)⟩,
    ⟨by decide, fun _ _ _ => ⟨by decide, ?_⟩⟩, ?_⟩
  · simp
  · simp

/-- Three chunks of 1 MB stay in one segment, and a boundary chunk that arrives
at 512 KB does not close its segment. -/
theorem labelled_exceeds_limits :
    (∃ s ∈ labelled (List.replicate 3 ⟨.filled 0, 2 ^ 20⟩), docMax < total s.1) ∧
      ∃ s ∈ labelled [⟨.filled 0, 2 ^ 19⟩, ⟨.filled 0x3f, 2 ^ 19⟩, ⟨.filled 0x3f, 1⟩],
        s.2 = some .fingerprint ∧ Missed s.1 := by
  refine ⟨by decide, ?_⟩
  refine ⟨([⟨.filled 0, 2 ^ 19⟩, ⟨.filled 0x3f, 2 ^ 19⟩], some .fingerprint), by decide, rfl, ?_⟩
  exact ⟨[⟨.filled 0, 2 ^ 19⟩], ⟨.filled 0x3f, 2 ^ 19⟩, [], rfl, by decide, by decide⟩

end FreqAnalysis.Defense
