/-
Edits taken back. What a list of edits makes of a source is undone by edits of the same kind: in the order of the text,
each one puts back what stood at its place. Its range is shifted by what the edits before it have made the text longer.

- `inverse`: the edits that take back a list of edits.
- `applyFrom_takenBack`, `applyFrom_inverseFrom`: one edit, and edits made behind a cursor, are taken back.
- `ordered_of_applyFrom`: edits that can be made one after the other are in the order of the text, so that sorting leaves
  them as they are. Deletions that are taken back become insertions at one offset; they stay in their order, too.
- `applyAll_inverse`: the inverse of edits that were made can be made, and gives back the source.
-/
import Isolation.Proofs.Source.SimultaneousEdits

namespace Isolation.Edit

variable {source out front back : List UInt8} {e : Edit} {edits : List Edit} {cursor : Nat} {shift : Int}

/-! ## The inverse -/

/-- how much longer an edit makes the text -/
def growth (e : Edit) : Int := (Utf8.encode e.replacement).length - (Utf8.encode e.expected).length

/-- takes back an edit in a text that the edits before it have made longer by `shift` -/
def takenBack (shift : Int) (e : Edit) : Edit :=
  let start := (e.span.start + shift).toNat
  ⟨⟨start, start + (Utf8.encode e.replacement).length⟩, e.replacement, e.expected⟩

/-- takes back edits in the order of the text; the text in front of the first one is longer by `shift` -/
def inverseFrom (shift : Int) : List Edit → List Edit
  | [] => []
  | e :: rest => e.takenBack shift :: inverseFrom (shift + e.growth) rest

/-- takes back the edits that change something, in the order of the text -/
def inverse (edits : List Edit) : List Edit := inverseFrom 0 (ordered edits)

theorem isNoop_takenBack (shift : Int) (e : Edit) : (e.takenBack shift).isNoop = e.isNoop := by
  rw [isNoop, isNoop, takenBack, Bool.beq_comm]

theorem mem_inverseFrom {f : Edit} (h : f ∈ inverseFrom shift edits) : ∃ e ∈ edits, ∃ s, f = e.takenBack s := by
  induction edits generalizing shift with
  | nil => cases h
  | cons e rest ih =>
    rw [inverseFrom, List.mem_cons] at h
    rcases h with rfl | h
    · exact ⟨e, List.mem_cons_self, shift, rfl⟩
    · obtain ⟨e', he', s, rfl⟩ := ih h
      exact ⟨e', List.mem_cons_of_mem e he', s, rfl⟩

/-! ## Taking back edits in order -/

theorem Matches.length_expected (h : Matches source e) :
    (Utf8.encode e.expected).length = e.span.stop - e.span.start := by
  have hinside := h.inside
  rw [← h.holds, List.length_take, List.length_drop]
  omega

/-- what an edit keeps in front of it reaches from the cursor to the start of its range -/
theorem Matches.length_kept (h : Matches source e) (hcursor : cursor ≤ e.span.start) :
    ((source.drop cursor).take (e.span.start - cursor)).length = e.span.start - cursor := by
  have hordered := h.ordered
  have hinside := h.inside
  rw [List.length_take, List.length_drop]
  omega

/-- the source behind a cursor: what an edit keeps, what it expects, and what is behind its range -/
theorem Matches.drop_cursor (h : Matches source e) (hcursor : cursor ≤ e.span.start) :
    source.drop cursor = (source.drop cursor).take (e.span.start - cursor) ++
      (Utf8.encode e.expected ++ source.drop e.span.stop) := by
  have hrange : source.drop e.span.start = Utf8.encode e.expected ++ source.drop e.span.stop := by
    have hsplit := List.take_append_drop (e.span.stop - e.span.start) (source.drop e.span.start)
    rw [h.holds, List.drop_drop, Nat.add_sub_of_le h.ordered] at hsplit
    exact hsplit.symm
  have hsplit := List.take_append_drop (e.span.start - cursor) (source.drop cursor)
  rw [List.drop_drop, Nat.add_sub_of_le hcursor, hrange] at hsplit
  exact hsplit.symm

/-- an edit finds what it expects if that stands at its range -/
theorem matches_append (hspan : e.span = ⟨front.length, front.length + (Utf8.encode e.expected).length⟩) :
    Matches (front ++ (Utf8.encode e.expected ++ back)) e := by
  constructor
  · rw [hspan]
    exact Nat.le_add_right _ _
  · simp [hspan]
  · rw [hspan, List.drop_left, Nat.add_sub_cancel_left, List.take_left]

/-- **One edit is taken back.** Behind a text that is as much longer as the shift says stand what the edit has kept and what
it has put there. If the other edits are taken back behind that, then together with this one they give the source behind
the cursor. -/
theorem applyFrom_takenBack {kept tail : List UInt8} {rest : List Edit} (he : Matches source e)
    (hcursor : cursor ≤ e.span.start) (hkept : kept = (source.drop cursor).take (e.span.start - cursor))
    (hfront : (front.length : Int) = cursor + shift)
    (hrest : applyFrom (front ++ kept ++ Utf8.encode e.replacement ++ tail)
      (front ++ kept ++ Utf8.encode e.replacement).length rest = .ok (source.drop e.span.stop)) :
    applyFrom (front ++ kept ++ Utf8.encode e.replacement ++ tail) front.length (e.takenBack shift :: rest) =
      .ok (source.drop cursor) := by
  have hlength : kept.length = e.span.start - cursor := hkept ▸ he.length_kept hcursor
  have hstart : (e.span.start + shift).toNat = (front ++ kept).length := by
    rw [List.length_append, hlength]
    omega
  have hspan : (e.takenBack shift).span =
      ⟨(front ++ kept).length, (front ++ kept).length + (Utf8.encode e.replacement).length⟩ := by
    rw [takenBack, hstart]
  rw [List.length_append] at hrest
  rw [applyFrom_cons_eq_ok_iff, hspan]
  refine ⟨?_, ?_, source.drop e.span.stop, hrest, ?_⟩
  · rw [List.length_append]
    exact Nat.le_add_right _ _
  · rw [List.append_assoc]
    exact matches_append (e := e.takenBack shift) hspan
  · have hfound : (front ++ kept ++ Utf8.encode e.replacement ++ tail).drop front.length =
        kept ++ (Utf8.encode e.replacement ++ tail) := by
      simp only [List.append_assoc, List.drop_left]
    calc source.drop cursor
        = kept ++ Utf8.encode e.expected ++ source.drop e.span.stop := by
          rw [hkept, List.append_assoc]
          exact he.drop_cursor hcursor
      _ = _ := by
          rw [hfound, List.length_append, Nat.add_sub_cancel_left, List.take_left]
          rfl

/-- **Edits are taken back one after the other.** Behind a cursor they turn the rest of the source into `tail`; behind any
text that is as much longer as the shift says, their inverse turns `tail` into the rest of the source. -/
theorem applyFrom_inverseFrom {tail : List UInt8} (h : applyFrom source cursor edits = .ok tail) (front : List UInt8)
    (hfront : (front.length : Int) = cursor + shift) :
    applyFrom (front ++ tail) front.length (inverseFrom shift edits) = .ok (source.drop cursor) := by
  induction edits generalizing cursor shift front tail with
  | nil =>
    cases h
    rw [inverseFrom, applyFrom, List.drop_left]
  | cons e rest ih =>
    obtain ⟨hcursor, he, tail, htail, rfl⟩ := applyFrom_cons_eq_ok_iff.1 h
    obtain ⟨kept, hkept⟩ : ∃ kept, kept = (source.drop cursor).take (e.span.start - cursor) := ⟨_, rfl⟩
    -- the text in front of the other edits is longer by what this one has added
    have hlonger : ((front ++ kept ++ Utf8.encode e.replacement).length : Int) =
        e.span.stop + (shift + e.growth) := by
      have hlength := he.length_kept hcursor
      have hexpected := he.length_expected
      have hordered := he.ordered
      rw [List.length_append, List.length_append, hkept, hlength, growth]
      omega
    have hrest := ih htail (front ++ kept ++ Utf8.encode e.replacement) hlonger
    have hstep := applyFrom_takenBack he hcursor hkept hfront hrest
    rw [← hkept, inverseFrom, ← List.append_assoc, ← List.append_assoc]
    exact hstep

/-! ## Sorting -/

/-- edits that can be made one after the other are in the order of the text -/
theorem ordered_of_applyFrom (h : applyFrom source cursor edits = .ok out) (heffective : ∀ e ∈ edits, e.isNoop = false) :
    ordered edits = edits := by
  obtain ⟨hall, hpairs, -⟩ := applyFrom_eq_ok_iff.1 h
  have hfilter : edits.filter (!·.isNoop) = edits := by
    rw [List.filter_eq_self]
    intro e he
    rw [heffective e he, Bool.not_false]
  rw [ordered, hfilter]
  apply List.mergeSort_of_pairwise
  refine List.Pairwise.imp_of_mem ?_ hpairs
  intro a b ha hb hab
  -- two edits with one start: the first one is an insertion, and so it does not end behind the other
  have hordered := (hall a ha).1.ordered
  have hordered' := (hall b hb).1.ordered
  rw [before_iff]
  omega

theorem isNoop_of_mem_inverse {f : Edit} (h : f ∈ inverse edits) : f.isNoop = false := by
  obtain ⟨e, he, s, rfl⟩ := mem_inverseFrom h
  have heffective := (ordered_perm edits).mem_iff.1 he
  rw [isNoop_takenBack]
  simpa using (List.mem_filter.1 heffective).2

/-- **Edits are reversible.** If a list of edits can be made, then its inverse can be made on the result, and gives back
the source. -/
theorem applyAll_inverse (h : applyAll source edits = .ok out) : applyAll out (inverse edits) = .ok source := by
  have hback : applyFrom out 0 (inverse edits) = .ok source := by
    have hstart : (([] : List UInt8).length : Int) = (0 : Nat) + 0 := rfl
    have htaken := applyFrom_inverseFrom h [] hstart
    rwa [List.nil_append, List.drop_zero] at htaken
  have hordered : ordered (inverse edits) = inverse edits :=
    ordered_of_applyFrom hback fun f hf => isNoop_of_mem_inverse hf
  calc applyAll out (inverse edits)
      = applyFrom out 0 (inverse edits) := by rw [applyAll, hordered]
    _ = .ok source := hback

/-- deletions side by side, insertions behind them and a replacement, not in the order of the text, and an edit that changes
nothing -/
def crowdedEdits : List Edit :=
  [⟨⟨4, 5⟩, "e", "XYZ"⟩, insertion 4 "é", ⟨⟨2, 4⟩, "cd", ""⟩, ⟨⟨5, 6⟩, "f", "f"⟩, insertion 4 "2", ⟨⟨0, 2⟩, "ab", ""⟩]

/-- the deletions become insertions at one offset, the insertions deletions of ranges side by side -/
theorem applyAll_inverse_sample :
    applyAll (Utf8.encode "abcdef") crowdedEdits = .ok (Utf8.encode "é2XYZf") ∧
      inverse crowdedEdits =
        [insertion 0 "ab", insertion 0 "cd", ⟨⟨0, 2⟩, "é", ""⟩, ⟨⟨2, 3⟩, "2", ""⟩, ⟨⟨3, 6⟩, "XYZ", "e"⟩] ∧
      applyAll (Utf8.encode "é2XYZf") (inverse crowdedEdits) = .ok (Utf8.encode "abcdef") := by
  have hmade : applyAll (Utf8.encode "abcdef") crowdedEdits = .ok (Utf8.encode "é2XYZf") :=
    applyAll_eq_ok_iff.2 ⟨by decide +kernel, by decide +kernel⟩
  have hordered : ordered crowdedEdits =
      [⟨⟨0, 2⟩, "ab", ""⟩, ⟨⟨2, 4⟩, "cd", ""⟩, insertion 4 "é", insertion 4 "2", ⟨⟨4, 5⟩, "e", "XYZ"⟩] := by
    simp [ordered, crowdedEdits, insertion, isNoop, List.mergeSort, List.MergeSort.Internal.splitInTwo, before]
  exact ⟨hmade, by rw [inverse, hordered]; decide +kernel, applyAll_inverse hmade⟩

end Isolation.Edit
