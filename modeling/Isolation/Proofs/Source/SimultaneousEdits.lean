/-
Edits of a source, made all at once. A list of edits says for every offset of the source what stands there afterwards:
what is inserted there, then what replaces a range that starts there, then the byte itself unless it lies in a replaced
range. No order of the list enters, but for edits of one range.

- `Compatible`: every edit finds what it expects, and any two are apart.
- `simultaneous`: the source with all edits made, offset by offset.
- `applyFrom_cons_eq_ok_iff`, `applyFrom_eq_ok_iff`: one edit, and edits in the order of the text, made behind a cursor.
- `ordered_eq_of_reordered`: sorting forgets every order but that of edits of one range.
- `applyAll_eq_ok_iff`: edits are made exactly if they are compatible, and then offset by offset.
- `applyAll_simultaneous`: the same, and the outcome of edits in another order.
-/
import Isolation.Source.Edit
import Mathlib.Data.List.Sort
import Mathlib.Tactic

namespace Isolation.Edit

variable {source out : List UInt8} {a b e : Edit} {edits edits' rest : List Edit} {cursor i : Nat}

/-! ## What edits ask for -/

/-- the edits that change something, in the order given -/
def effective (edits : List Edit) : List Edit := edits.filter (!·.isNoop)

/-- the range lies in the source and holds what the edit expects -/
structure Matches (source : List UInt8) (e : Edit) : Prop where
  ordered : e.span.start ≤ e.span.stop
  inside : e.span.stop ≤ source.length
  holds : (source.drop e.span.start).take (e.span.stop - e.span.start) = Utf8.encode e.expected

/-- one of the edits ends before the other starts, or just there -/
def Apart (a b : Edit) : Prop := a.span.stop ≤ b.span.start ∨ b.span.stop ≤ a.span.start

/-- every edit finds what it expects, and any two are apart -/
structure Compatible (source : List UInt8) (edits : List Edit) : Prop where
  matching : ∀ e ∈ edits, Matches source e
  apart : edits.Pairwise Apart

/-- the same edits in another order, those of one range in the same order -/
def Reordered (edits edits' : List Edit) : Prop :=
  edits.Perm edits' ∧ ∀ e ∈ edits, edits.filter (·.span = e.span) = edits'.filter (·.span = e.span)

instance (a b : Edit) : Decidable (Apart a b) := inferInstanceAs (Decidable (_ ∨ _))

instance (source : List UInt8) (e : Edit) : Decidable (Matches source e) :=
  decidable_of_iff (e.span.start ≤ e.span.stop ∧ e.span.stop ≤ source.length ∧
      (source.drop e.span.start).take (e.span.stop - e.span.start) = Utf8.encode e.expected)
    ⟨fun h => ⟨h.1, h.2.1, h.2.2⟩, fun h => ⟨h.ordered, h.inside, h.holds⟩⟩

instance (source : List UInt8) (edits : List Edit) : Decidable (Compatible source edits) :=
  decidable_of_iff ((∀ e ∈ edits, Matches source e) ∧ edits.Pairwise Apart)
    ⟨fun h => ⟨h.1, h.2⟩, fun h => ⟨h.matching, h.apart⟩⟩

instance (edits edits' : List Edit) : Decidable (Reordered edits edits') := inferInstanceAs (Decidable (_ ∧ _))

theorem Apart.symm (h : Apart a b) : Apart b a := Or.symm h

theorem slice?_eq_some_iff : slice? source e.span = some (Utf8.encode e.expected) ↔ Matches source e := by
  unfold slice?
  split
  · rename_i hspan
    simp only [Bool.and_eq_true, decide_eq_true_eq] at hspan
    rw [Option.some.injEq]
    exact ⟨fun h => ⟨hspan.1, hspan.2, h⟩, fun h => h.holds⟩
  · rename_i hspan
    simp only [Bool.and_eq_true, decide_eq_true_eq] at hspan
    exact ⟨fun h => by simp at h, fun h => absurd ⟨h.ordered, h.inside⟩ hspan⟩

/-! ## What they make of the source -/

/-- what the edits with these ranges put into the text, in the order given -/
def putBy (edits : List Edit) (ranges : Span → Bool) : List UInt8 :=
  (edits.filter fun e => ranges e.span).flatMap fun e => Utf8.encode e.replacement

/-- what stands at an offset afterwards: what is inserted there, what replaces a range that starts there, and the byte
itself unless it lies in a replaced range -/
def contentsAt (source : List UInt8) (edits : List Edit) (i : Nat) : List UInt8 :=
  putBy edits (fun span => span = ⟨i, i⟩) ++ putBy edits (fun span => span.start = i ∧ i < span.stop) ++
    if edits.any (fun e => e.span.start ≤ i ∧ i < e.span.stop) then [] else source[i]?.toList

/-- the source from an offset to its end, with the edits made -/
def contentsFrom (source : List UInt8) (edits : List Edit) (i : Nat) : List UInt8 :=
  (List.range' i (source.length + 1 - i)).flatMap (contentsAt source edits)

/-- the source with all edits made -/
def simultaneous (source : List UInt8) (edits : List Edit) : List UInt8 := contentsFrom source edits 0

theorem putBy_cons (e : Edit) (rest : List Edit) (ranges : Span → Bool) :
    putBy (e :: rest) ranges = (if ranges e.span then Utf8.encode e.replacement else []) ++ putBy rest ranges := by
  unfold putBy
  by_cases h : ranges e.span = true <;> simp [h]

theorem putBy_eq_nil {ranges : Span → Bool} (h : ∀ e ∈ edits, ranges e.span = false) : putBy edits ranges = [] := by
  unfold putBy
  rw [List.filter_eq_nil_iff.2 fun e he => by simp [h e he]]
  rfl

/-- in front of all edits the source is as it was -/
theorem contentsAt_before (h : ∀ e ∈ edits, i < e.span.start) : contentsAt source edits i = source[i]?.toList := by
  have hinsert : putBy edits (fun span => span = ⟨i, i⟩) = [] := by
    apply putBy_eq_nil
    intro e he
    have := h e he
    simp only [decide_eq_false_iff_not]
    rintro hspan
    rw [hspan] at this
    exact absurd this (Nat.lt_irrefl i)
  have hreplace : putBy edits (fun span => span.start = i ∧ i < span.stop) = [] := by
    apply putBy_eq_nil
    intro e he
    have := h e he
    simp only [decide_eq_false_iff_not]
    omega
  have hcover : edits.any (fun e => e.span.start ≤ i ∧ i < e.span.stop) = false := by
    rw [List.any_eq_false]
    intro e he
    have := h e he
    simp only [decide_eq_true_eq]
    omega
  rw [contentsAt, hinsert, hreplace, hcover]
  simp

/-- the bytes of a source, offset by offset -/
theorem flatMap_getElem? (source : List UInt8) (i n : Nat) :
    (List.range' i n).flatMap (fun k => source[k]?.toList) = (source.drop i).take n := by
  induction n generalizing i with
  | zero => simp
  | succ n ih =>
    rw [List.range'_succ, List.flatMap_cons, ih]
    by_cases hi : i < source.length
    · rw [List.getElem?_eq_getElem hi, List.drop_eq_getElem_cons hi, List.take_succ_cons]
      rfl
    · have hlong : source.length ≤ i := Nat.le_of_not_lt hi
      rw [List.getElem?_eq_none hlong, List.drop_eq_nil_of_le hlong, List.drop_eq_nil_of_le (Nat.le_succ_of_le hlong)]
      simp

/-- an insertion comes before everything else at its offset -/
theorem contentsAt_insertion (h : e.span.start = e.span.stop) :
    contentsAt source (e :: rest) e.span.start =
      Utf8.encode e.replacement ++ contentsAt source rest e.span.start := by
  obtain ⟨⟨start, stop⟩, expected, replacement⟩ := e
  obtain rfl : start = stop := h
  simp only [contentsAt, putBy_cons, List.any_cons]
  simp

/-- behind a range its edit has no part in the text -/
theorem contentsAt_behind (hstop : e.span.stop ≤ i) (hstart : e.span.start < i) :
    contentsAt source (e :: rest) i = contentsAt source rest i := by
  have hinsert : e.span ≠ ⟨i, i⟩ := by
    intro hspan
    rw [hspan] at hstart
    exact absurd hstart (Nat.lt_irrefl i)
  have hreplace : ¬ (e.span.start = i ∧ i < e.span.stop) := by omega
  have hcover : ¬ (e.span.start ≤ i ∧ i < e.span.stop) := by omega
  simp only [contentsAt, putBy_cons, List.any_cons]
  simp [hinsert, hreplace, hcover]

/-- where a replaced range starts stands what replaces it -/
theorem contentsAt_replaced (h : e.span.start < e.span.stop) (hrest : ∀ f ∈ rest, e.span.stop ≤ f.span.start) :
    contentsAt source (e :: rest) e.span.start = Utf8.encode e.replacement := by
  have hinsert : putBy (e :: rest) (fun span => span = ⟨e.span.start, e.span.start⟩) = [] := by
    apply putBy_eq_nil
    intro f hf
    simp only [decide_eq_false_iff_not]
    rcases List.mem_cons.1 hf with rfl | hf
    · intro hspan
      rw [hspan] at h
      exact absurd h (Nat.lt_irrefl _)
    · intro hspan
      have := hrest f hf
      rw [hspan] at this
      exact absurd h (Nat.not_lt.2 this)
  have hnone : putBy rest (fun span => span.start = e.span.start ∧ e.span.start < span.stop) = [] := by
    apply putBy_eq_nil
    intro f hf
    have := hrest f hf
    simp only [decide_eq_false_iff_not]
    omega
  rw [contentsAt, hinsert, putBy_cons, hnone, List.any_cons]
  simp [h]

/-- inside a replaced range stands nothing -/
theorem contentsAt_inside (hstart : e.span.start < i) (hstop : i < e.span.stop)
    (hrest : ∀ f ∈ rest, e.span.stop ≤ f.span.start) : contentsAt source (e :: rest) i = [] := by
  have hall : ∀ f ∈ e :: rest, f.span.start ≠ i := by
    intro f hf
    rcases List.mem_cons.1 hf with rfl | hf
    · omega
    · have := hrest f hf
      omega
  have hinsert : putBy (e :: rest) (fun span => span = ⟨i, i⟩) = [] := by
    apply putBy_eq_nil
    intro f hf
    simp only [decide_eq_false_iff_not]
    intro hspan
    exact hall f hf (by rw [hspan])
  have hreplace : putBy (e :: rest) (fun span => span.start = i ∧ i < span.stop) = [] := by
    apply putBy_eq_nil
    intro f hf
    simp [hall f hf]
  have hcover : e.span.start ≤ i ∧ i < e.span.stop := ⟨hstart.le, hstop⟩
  rw [contentsAt, hinsert, hreplace, List.any_cons]
  simp [hcover]

/-- what is behind the start of the first edit: its text, and what the others make of the source behind its range -/
theorem contentsFrom_start (he : Matches source e) (hrest : ∀ f ∈ rest, e.span.stop ≤ f.span.start) :
    contentsFrom source (e :: rest) e.span.start =
      Utf8.encode e.replacement ++ contentsFrom source rest e.span.stop := by
  have hordered := he.ordered
  have hinside := he.inside
  rcases hordered.eq_or_lt with hsame | hlt
  · -- an insertion: only its own offset changes
    obtain ⟨n, hn⟩ : ∃ n, source.length + 1 - e.span.start = n + 1 := ⟨source.length - e.span.start, by omega⟩
    have hbehind : (List.range' (e.span.start + 1) n).flatMap (contentsAt source (e :: rest)) =
        (List.range' (e.span.start + 1) n).flatMap (contentsAt source rest) := by
      apply List.flatMap_congr
      intro k hk
      rw [List.mem_range'_1] at hk
      exact contentsAt_behind (by omega) (by omega)
    rw [contentsFrom, contentsFrom, ← hsame, hn, List.range'_succ, List.flatMap_cons, List.flatMap_cons,
      contentsAt_insertion hsame, hbehind, List.append_assoc]
  · -- a replacement: its text at the start, nothing inside
    obtain ⟨n, hn⟩ : ∃ n, e.span.stop = e.span.start + (n + 1) := ⟨e.span.stop - e.span.start - 1, by omega⟩
    have hsplit : List.range' e.span.start (source.length + 1 - e.span.start) =
        e.span.start :: List.range' (e.span.start + 1) n ++
          List.range' e.span.stop (source.length + 1 - e.span.stop) := by
      rw [← List.range'_succ, hn, List.range'_append_1]
      congr 1
      omega
    have hinner : (List.range' (e.span.start + 1) n).flatMap (contentsAt source (e :: rest)) = [] := by
      rw [List.flatMap_eq_nil_iff]
      intro k hk
      rw [List.mem_range'_1] at hk
      exact contentsAt_inside (by omega) (by omega) hrest
    have hbehind : (List.range' e.span.stop (source.length + 1 - e.span.stop)).flatMap (contentsAt source (e :: rest)) =
        contentsFrom source rest e.span.stop := by
      apply List.flatMap_congr
      intro k hk
      rw [List.mem_range'_1] at hk
      exact contentsAt_behind hk.1 (by omega)
    rw [contentsFrom, hsplit, List.flatMap_append, List.flatMap_cons, contentsAt_replaced hlt hrest, hinner, hbehind,
      List.append_nil]

/-- **One edit made.** In front of the first edit the source is kept, then come its text and what is behind it. -/
theorem contentsFrom_cons (he : Matches source e) (hcursor : cursor ≤ e.span.start)
    (hrest : ∀ f ∈ rest, e.span.stop ≤ f.span.start) :
    contentsFrom source (e :: rest) cursor =
      (source.drop cursor).take (e.span.start - cursor) ++ Utf8.encode e.replacement ++
        contentsFrom source rest e.span.stop := by
  have hordered := he.ordered
  have hinside := he.inside
  have hsplit : List.range' cursor (source.length + 1 - cursor) =
      List.range' cursor (e.span.start - cursor) ++
        List.range' e.span.start (source.length + 1 - e.span.start) := by
    have hstart : e.span.start = cursor + (e.span.start - cursor) := by omega
    nth_rewrite 2 [hstart]
    rw [List.range'_append_1]
    congr 1
    omega
  have hfront : (List.range' cursor (e.span.start - cursor)).flatMap (contentsAt source (e :: rest)) =
      (source.drop cursor).take (e.span.start - cursor) := by
    rw [← flatMap_getElem?]
    apply List.flatMap_congr
    intro k hk
    rw [List.mem_range'_1] at hk
    apply contentsAt_before
    intro f hf
    rcases List.mem_cons.1 hf with rfl | hf
    · omega
    · have := hrest f hf
      omega
  calc contentsFrom source (e :: rest) cursor
      = (source.drop cursor).take (e.span.start - cursor) ++ contentsFrom source (e :: rest) e.span.start := by
        rw [contentsFrom, hsplit, List.flatMap_append, hfront, contentsFrom]
    _ = _ := by rw [contentsFrom_start he hrest, List.append_assoc]

/-! ## Edits in order -/

/-- **One edit.** The first edit is made if it starts behind the cursor and finds what it expects, and the others can be
made behind it; its text comes between what is kept in front of it and what they make of the rest. -/
theorem applyFrom_cons_eq_ok_iff : applyFrom source cursor (e :: rest) = .ok out ↔
    cursor ≤ e.span.start ∧ Matches source e ∧ ∃ tail, applyFrom source e.span.stop rest = .ok tail ∧
      out = (source.drop cursor).take (e.span.start - cursor) ++ Utf8.encode e.replacement ++ tail := by
  rw [applyFrom]
  constructor
  · intro h
    split at h
    · cases h
    rename_i hcursor
    split at h
    · cases h
    rename_i found hfound
    split at h
    · cases h
    rename_i hsame
    rw [not_not] at hsame
    split at h
    · cases h
    rename_i tail htail
    cases h
    have he : Matches source e := slice?_eq_some_iff.1 (hfound.trans (congrArg some hsame))
    exact ⟨Nat.le_of_not_lt hcursor, he, tail, htail, rfl⟩
  · rintro ⟨hcursor, he, tail, htail, rfl⟩
    rw [if_neg (Nat.not_lt.2 hcursor), slice?_eq_some_iff.2 he]
    dsimp only
    rw [if_neg (not_not.2 rfl), htail]

/-- **Edits made behind a cursor.** They are made if each one finds what it expects, starts behind the cursor and ends
before the next one starts. -/
theorem applyFrom_eq_ok_iff : applyFrom source cursor edits = .ok out ↔
    (∀ e ∈ edits, Matches source e ∧ cursor ≤ e.span.start) ∧
      edits.Pairwise (fun a b => a.span.stop ≤ b.span.start) ∧ out = contentsFrom source edits cursor := by
  induction edits generalizing cursor out with
  | nil =>
    have hkept : contentsFrom source [] cursor = source.drop cursor := by
      have hbytes : contentsAt source [] = fun k => source[k]?.toList := by
        funext k
        exact contentsAt_before (by simp)
      rw [contentsFrom, hbytes, flatMap_getElem?]
      apply List.take_of_length_le
      rw [List.length_drop]
      omega
    simp [applyFrom, hkept, eq_comm]
  | cons e rest ih =>
    rw [applyFrom_cons_eq_ok_iff, List.pairwise_cons, List.forall_mem_cons]
    constructor
    · rintro ⟨hcursor, he, tail, htail, rfl⟩
      obtain ⟨hall, hpairs, rfl⟩ := ih.1 htail
      have hrest : ∀ f ∈ rest, e.span.stop ≤ f.span.start := fun f hf => (hall f hf).2
      refine ⟨⟨⟨he, hcursor⟩, fun f hf => ⟨(hall f hf).1, ?_⟩⟩, ⟨hrest, hpairs⟩, ?_⟩
      · exact hcursor.trans (he.ordered.trans (hrest f hf))
      · exact (contentsFrom_cons he hcursor hrest).symm
    · rintro ⟨⟨⟨he, hcursor⟩, hall⟩, ⟨hrest, hpairs⟩, rfl⟩
      have htail := ih.2 ⟨fun f hf => ⟨(hall f hf).1, hrest f hf⟩, hpairs, rfl⟩
      exact ⟨hcursor, he, _, htail, contentsFrom_cons he hcursor hrest⟩

/-! ## Sorting -/

theorem before_iff : before a b = true ↔
    a.span.start < b.span.start ∨ a.span.start = b.span.start ∧ a.span.stop ≤ b.span.stop := by
  simp [before]

theorem before_trans (a b c : Edit) (hab : before a b = true) (hbc : before b c = true) : before a c = true := by
  rw [before_iff] at hab hbc ⊢
  omega

theorem before_total (a b : Edit) : (before a b || before b a) = true := by
  rw [Bool.or_eq_true, before_iff, before_iff]
  omega

/-- edits that come before each other have the same range -/
theorem span_eq_of_before (hab : before a b = true) (hba : before b a = true) : a.span = b.span := by
  rw [before_iff] at hab hba
  obtain ⟨⟨s, t⟩, _, _⟩ := a
  obtain ⟨⟨u, v⟩, _, _⟩ := b
  simp only [Span.mk.injEq] at hab hba ⊢
  omega

theorem pairwise_ordered (edits : List Edit) : (ordered edits).Pairwise fun a b => before a b = true :=
  List.pairwise_mergeSort before_trans before_total _

theorem ordered_perm (edits : List Edit) : (ordered edits).Perm (effective edits) := List.mergeSort_perm _ _

/-- sorting keeps the order of edits of one range -/
theorem filter_ordered (edits : List Edit) (span : Span) :
    (ordered edits).filter (·.span = span) = (effective edits).filter (·.span = span) := by
  have hsorted : ((effective edits).filter (·.span = span)).Pairwise fun a b => before a b = true := by
    apply List.pairwise_of_forall_mem_list
    intro a ha b hb
    have ha := of_decide_eq_true (List.mem_filter.1 ha).2
    have hb := of_decide_eq_true (List.mem_filter.1 hb).2
    rw [before_iff, ha, hb]
    exact .inr ⟨rfl, Nat.le_refl _⟩
  have hsub : ((effective edits).filter (·.span = span)).Sublist (ordered edits) :=
    List.sublist_mergeSort before_trans before_total hsorted List.filter_sublist
  have hfilter := hsub.filter (·.span = span)
  rw [List.filter_filter] at hfilter
  simp only [Bool.and_self] at hfilter
  exact (hfilter.eq_of_length ((ordered_perm edits).filter _).length_eq.symm).symm

/-- a sorted list is told by its edits of each range -/
theorem eq_of_filter_eq {l m : List Edit} (hl : l.Pairwise fun a b => before a b = true)
    (hm : m.Pairwise fun a b => before a b = true)
    (h : ∀ span, l.filter (·.span = span) = m.filter (·.span = span)) : l = m := by
  induction l generalizing m with
  | nil =>
    cases m with
    | nil => rfl
    | cons b m => simpa using h b.span
  | cons a l ih =>
    have hmem : a ∈ m := by
      have ha : a ∈ (a :: l).filter (·.span = a.span) := by simp
      rw [h] at ha
      exact List.mem_of_mem_filter ha
    cases m with
    | nil => cases hmem
    | cons b m =>
      have hmem' : b ∈ a :: l := by
        have hb : b ∈ (b :: m).filter (·.span = b.span) := by simp
        rw [← h] at hb
        exact List.mem_of_mem_filter hb
      rw [List.pairwise_cons] at hl hm
      -- neither comes after the other, so both are the first of their range
      have hspan : a.span = b.span := by
        rcases List.mem_cons.1 hmem with rfl | hmem
        · rfl
        rcases List.mem_cons.1 hmem' with rfl | hmem'
        · rfl
        exact span_eq_of_before (hl.1 b hmem') (hm.1 a hmem)
      have hfirst := h a.span
      rw [List.filter_cons_of_pos (by simp), List.filter_cons_of_pos (by simp [hspan]), List.cons.injEq] at hfirst
      obtain ⟨rfl, -⟩ := hfirst
      congr 1
      apply ih hl.2 hm.2
      intro span
      have hspan := h span
      by_cases ha : a.span = span
      · simpa [ha] using hspan
      · simpa [ha] using hspan

theorem ordered_eq_of_reordered (h : Reordered (effective edits) (effective edits')) :
    ordered edits' = ordered edits := by
  obtain ⟨hperm, horder⟩ := h
  apply eq_of_filter_eq (pairwise_ordered edits') (pairwise_ordered edits)
  intro span
  rw [filter_ordered, filter_ordered]
  by_cases hmem : ∃ e ∈ effective edits, e.span = span
  · obtain ⟨e, he, rfl⟩ := hmem
    exact (horder e he).symm
  · -- a range that no edit has
    have hnone : ∀ e ∈ effective edits, ¬ e.span = span := fun e he hspan => hmem ⟨e, he, hspan⟩
    have hnone' : ∀ e ∈ effective edits', ¬ e.span = span := fun e he => hnone e (hperm.mem_iff.2 he)
    rw [List.filter_eq_nil_iff.2 (by simpa using hnone'), List.filter_eq_nil_iff.2 (by simpa using hnone)]

/-! ## All edits -/

/-- of edits that are apart, at most one replaces a range that starts at an offset -/
theorem filter_starting_perm {l m : List Edit} (hperm : l.Perm m) (hapart : l.Pairwise Apart) (i : Nat) :
    l.filter (fun e => e.span.start = i ∧ i < e.span.stop) =
      m.filter (fun e => e.span.start = i ∧ i < e.span.stop) := by
  have hfilter := hperm.filter fun e => decide (e.span.start = i ∧ i < e.span.stop)
  have hpairs := hapart.sublist (List.filter_sublist (p := fun e => decide (e.span.start = i ∧ i < e.span.stop)))
  have hmem : ∀ e ∈ l.filter (fun e => decide (e.span.start = i ∧ i < e.span.stop)),
      e.span.start = i ∧ i < e.span.stop := fun e he => of_decide_eq_true (List.mem_filter.1 he).2
  generalize l.filter (fun e => decide (e.span.start = i ∧ i < e.span.stop)) = starting at hfilter hpairs hmem ⊢
  match starting with
  | [] => exact (List.nil_perm.1 hfilter).symm
  | [e] => exact List.singleton_perm.1 hfilter
  | e :: f :: _ =>
    have he := hmem e (by simp)
    have hf := hmem f (by simp)
    rcases (List.pairwise_cons.1 hpairs).1 f (by simp) with h | h <;> omega

/-- sorting changes nothing at any offset -/
theorem contentsAt_ordered (hapart : (effective edits).Pairwise Apart) (i : Nat) :
    contentsAt source (ordered edits) i = contentsAt source (effective edits) i := by
  have hperm := ordered_perm edits
  have hinsert : putBy (ordered edits) (fun span => span = ⟨i, i⟩) =
      putBy (effective edits) (fun span => span = ⟨i, i⟩) := by
    rw [putBy, putBy, filter_ordered]
  have hreplace : putBy (ordered edits) (fun span => span.start = i ∧ i < span.stop) =
      putBy (effective edits) (fun span => span.start = i ∧ i < span.stop) := by
    rw [putBy, putBy, filter_starting_perm hperm.symm hapart]
  have hcover : (ordered edits).any (fun e => e.span.start ≤ i ∧ i < e.span.stop) =
      (effective edits).any (fun e => e.span.start ≤ i ∧ i < e.span.stop) := hperm.any_eq
  rw [contentsAt, contentsAt, hinsert, hreplace, hcover]

/-- of two edits that are apart, the one that comes first in the order of the text ends before the other starts -/
theorem stop_le_start (hb : Matches source b) (hbefore : before a b = true) (hapart : Apart a b) :
    a.span.stop ≤ b.span.start := by
  have hordered := hb.ordered
  rw [before_iff] at hbefore
  rcases hapart with h | h <;> omega

/-- sorted edits follow each other exactly if any two are apart -/
theorem pairwise_ordered_iff (hmatch : ∀ e ∈ effective edits, Matches source e) :
    (ordered edits).Pairwise (fun a b => a.span.stop ≤ b.span.start) ↔ (effective edits).Pairwise Apart := by
  have hperm := ordered_perm edits
  rw [← hperm.pairwise_iff Apart.symm]
  constructor
  · exact fun h => h.imp Or.inl
  · intro h
    refine List.Pairwise.imp_of_mem ?_ ((pairwise_ordered edits).and h)
    intro a b _ hb hab
    exact stop_le_start (hmatch b (hperm.mem_iff.1 hb)) hab.1 hab.2

/-- edits are made exactly if they are compatible -/
theorem applyAll_eq_ok_iff : applyAll source edits = .ok out ↔
    Compatible source (effective edits) ∧ out = simultaneous source (effective edits) := by
  have hmem : ∀ e, e ∈ ordered edits ↔ e ∈ effective edits := fun e => (ordered_perm edits).mem_iff
  have hsame : (effective edits).Pairwise Apart →
      contentsFrom source (ordered edits) 0 = simultaneous source (effective edits) := fun hapart =>
    List.flatMap_congr fun i _ => contentsAt_ordered hapart i
  rw [applyAll, applyFrom_eq_ok_iff]
  constructor
  · rintro ⟨hall, hpairs, rfl⟩
    have hmatch : ∀ e ∈ effective edits, Matches source e := fun e he => (hall e ((hmem e).2 he)).1
    have hapart := (pairwise_ordered_iff hmatch).1 hpairs
    exact ⟨⟨hmatch, hapart⟩, hsame hapart⟩
  · rintro ⟨⟨hmatch, hapart⟩, rfl⟩
    refine ⟨fun e he => ⟨hmatch e ((hmem e).1 he), Nat.zero_le _⟩, ?_, (hsame hapart).symm⟩
    exact (pairwise_ordered_iff hmatch).2 hapart

/-- **Edits are made all at once.** Those that change nothing aside, edits can be made exactly if each range is in
order, lies in the source and holds what is expected there, and any two of them are apart. The source with the edits made
is then told offset by offset. Edits in another order, but for those of one range, have the same outcome, failures
included. -/
theorem applyAll_simultaneous (source : List UInt8) (edits : List Edit) :
    (∀ out, applyAll source edits = .ok out ↔
        Compatible source (effective edits) ∧ out = simultaneous source (effective edits)) ∧
      ∀ edits', Reordered (effective edits) (effective edits') → applyAll source edits' = applyAll source edits := by
  constructor
  · intro out
    exact applyAll_eq_ok_iff
  · intro edits' h
    rw [applyAll, applyAll, ordered_eq_of_reordered h]

/-- a replacement with insertions at both of its ends, one more at its start, and an edit that changes nothing -/
def sampleEdits : List Edit :=
  [⟨⟨2, 4⟩, "cd", "X"⟩, insertion 4 "3", insertion 2 "1", ⟨⟨0, 3⟩, "abc", "abc"⟩, insertion 2 "2"]

/-- the same edits, the insertions at one offset in the same order -/
def sampleReordering : List Edit :=
  [insertion 2 "1", insertion 2 "2", ⟨⟨0, 3⟩, "abc", "abc"⟩, ⟨⟨2, 4⟩, "cd", "X"⟩, insertion 4 "3"]

theorem applyAll_simultaneous_sample :
    Compatible (Utf8.encode "abcdef") (effective sampleEdits) ∧
      Reordered (effective sampleEdits) (effective sampleReordering) ∧
      applyAll (Utf8.encode "abcdef") sampleEdits = .ok (Utf8.encode "ab12X3ef") ∧
      applyAll (Utf8.encode "abcdef") sampleReordering = .ok (Utf8.encode "ab12X3ef") := by
  obtain ⟨hmade, hsame⟩ := applyAll_simultaneous (Utf8.encode "abcdef") sampleEdits
  have hcompatible : Compatible (Utf8.encode "abcdef") (effective sampleEdits) := by decide +kernel
  have hreordered : Reordered (effective sampleEdits) (effective sampleReordering) := by decide +kernel
  have hout := (hmade (Utf8.encode "ab12X3ef")).2 ⟨hcompatible, by decide +kernel⟩
  exact ⟨hcompatible, hreordered, hout, (hsame _ hreordered).trans hout⟩

end Isolation.Edit
