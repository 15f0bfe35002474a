/-
Self-exclusion compared segment by segment. A policy compares the letters of a name with those of the vendor prefix, and
so it also excludes a lookalike: a namespace with a segment that only begins with the last segment of the prefix, as
`Acme\IsolatedTools` does under the prefix `Acme\Isolated`. The relocation of directories compares whole segments.

- `resembles`: the lookalikes of a namespace.
- `lower_prefix_iff`: the letters of a row of segments stand in front of those of another one exactly if its segments do,
  or if the other one is a lookalike.
- `parse_eq_ok_iff`: which texts read as a namespace.
- `moves_iff_segmentwise`: a listed name is moved exactly if its segments do not start with those of the prefix and it is
  no lookalike.
-/
import Isolation.Proofs.Name.Decision
import Isolation.Relocation

namespace Isolation

/-! ## Small letters -/

namespace Ascii

theorem lower_toList (s : String) : (lower s).toList = s.toList.map Char.toLower := by simp [lower]

/-- a capital is 32 below its small letter, and nothing else changes -/
theorem toNat_toLower (c : Char) :
    c.toLower.toNat = if 65 ≤ c.toNat ∧ c.toNat ≤ 90 then c.toNat + 32 else c.toNat := by
  unfold Char.toLower
  split
  · rename_i hcapital
    have hrange : 65 ≤ c.toNat ∧ c.toNat ≤ 90 := hcapital
    have hval : (c.toNat + 32) % 2 ^ 32 = c.toNat + 32 := by omega
    rw [if_pos hrange]
    exact hval
  · rename_i hother
    exact (if_neg hother).symm

/-- only a separator becomes one -/
theorem toLower_eq_separator {c : Char} (h : c.toLower = separator) : c = separator := by
  have hval : c.toLower.toNat = 92 := congrArg Char.toNat h
  rw [toNat_toLower] at hval
  split at hval
  · omega
  · exact Char.toNat_inj.1 hval

theorem separator_not_mem_lower {s : String} (h : separator ∉ s.toList) : separator ∉ (lower s).toList := by
  rw [lower_toList, List.mem_map]
  rintro ⟨c, hc, heq⟩
  exact h (toLower_eq_separator heq ▸ hc)

theorem lower_join_cons_cons (s t : String) (rest : List String) : (lower (joinSegments (s :: t :: rest))).toList =
    (lower s).toList ++ separator :: (lower (joinSegments (t :: rest))).toList := by
  rw [joinSegments_cons_cons]
  simp [lower_toList, separator]

theorem sameIgnoringCase_iff {s t : String} : sameIgnoringCase s t = true ↔ (lower t).toList = (lower s).toList := by
  rw [sameIgnoringCase, beq_iff_eq, String.toList_inj, eq_comm]

end Ascii

/-! ## Texts in front of a separator -/

/-- a text without separators stands in front of another one only if it ends before the first separator there -/
theorem prefix_append_separator {p s rest : List Char} (h : separator ∉ p) :
    p <+: s ++ separator :: rest ↔ p <+: s := by
  refine ⟨fun hp => ?_, fun hp => hp.trans (List.prefix_append s _)⟩
  rcases List.prefix_or_prefix_of_prefix hp (List.prefix_append s (separator :: rest)) with hps | ⟨tail, rfl⟩
  · exact hps
  · rw [List.prefix_append_right_inj] at hp
    cases tail with
    | nil => simp
    | cons c tail =>
      rw [List.cons_prefix_cons] at hp
      exact absurd (by simp [hp.1]) h

/-- with a separator behind it, it ends where the first separator is -/
theorem prefix_with_separator_iff {p s more rest : List Char} (hp : separator ∉ p) (hs : separator ∉ s) :
    p ++ separator :: more <+: s ++ separator :: rest ↔ p = s ∧ more <+: rest := by
  constructor
  · intro h
    obtain ⟨tail, rfl⟩ : p <+: s := (prefix_append_separator hp).1 ((List.prefix_append p _).trans h)
    rw [List.append_assoc, List.prefix_append_right_inj] at h
    cases tail with
    | nil =>
      rw [List.nil_append, List.cons_prefix_cons] at h
      exact ⟨by simp, h.2⟩
    | cons c tail =>
      rw [List.cons_append, List.cons_prefix_cons] at h
      exact absurd (by simp [h.1]) hs
  · rintro ⟨rfl, h⟩
    rw [List.prefix_append_right_inj, List.cons_prefix_cons]
    exact ⟨rfl, h⟩

namespace Namespace

/-! ## Lookalikes -/

/-- the segments of the second row are those of the first, but the last one is only the beginning of the segment at its
place; the case of ASCII letters aside -/
def resemblesSegments : List String → List String → Bool
  | s :: _, [p] => Text.startsWith (Ascii.lower s) (Ascii.lower p) && !Ascii.sameIgnoringCase s p
  | s :: rest, p :: q :: more => Ascii.sameIgnoringCase s p && resemblesSegments rest (q :: more)
  | _, _ => false

/-- `n` begins with the letters of `other` and goes on inside its last segment -/
def resembles (n other : Namespace) : Bool := resemblesSegments n.segments other.segments

theorem startsWithIgnoringCase_nil (n : Namespace) : n.startsWithIgnoringCase ⟨[]⟩ = true := by
  simp [startsWithIgnoringCase]

theorem nil_startsWithIgnoringCase (p : String) (more : List String) :
    startsWithIgnoringCase ⟨[]⟩ ⟨p :: more⟩ = false := by
  simp [startsWithIgnoringCase]

theorem cons_startsWithIgnoringCase (s p : String) (rest more : List String) :
    startsWithIgnoringCase ⟨s :: rest⟩ ⟨p :: more⟩ =
      (Ascii.sameIgnoringCase s p && startsWithIgnoringCase ⟨rest⟩ ⟨more⟩) := by
  simp [startsWithIgnoringCase, Bool.and_left_comm]

theorem startsWithIgnoringCase_append (front rest : List String) :
    startsWithIgnoringCase ⟨front ++ rest⟩ ⟨front⟩ = true := by
  induction front with
  | nil => exact startsWithIgnoringCase_nil _
  | cons s more ih =>
    rw [List.cons_append, cons_startsWithIgnoringCase, ih, Ascii.sameIgnoringCase, beq_self_eq_true, Bool.and_true]

/-- the letters of a row stand in front of those of a name exactly if the row does, or if the name is a lookalike -/
theorem lower_prefix_iff {name front : List String} (hne : name ≠ []) (hfront : front ≠ [])
    (hname : ∀ s ∈ name, separator ∉ s.toList) (hsep : ∀ s ∈ front, separator ∉ s.toList) :
    (Ascii.lower (joinSegments front)).toList <+: (Ascii.lower (joinSegments name)).toList ↔
      startsWithIgnoringCase ⟨name⟩ ⟨front⟩ = true ∨ resemblesSegments name front = true := by
  induction front generalizing name with
  | nil => exact absurd rfl hfront
  | cons p more ih =>
    obtain ⟨s, rest, rfl⟩ := List.exists_cons_of_ne_nil hne
    rw [List.forall_mem_cons] at hname hsep
    have hs := Ascii.separator_not_mem_lower hname.1
    have hp := Ascii.separator_not_mem_lower hsep.1
    rw [cons_startsWithIgnoringCase]
    cases more with
    | nil =>
      -- the letters of the front end inside this segment of the name
      have hfirst : (Ascii.lower p).toList <+: (Ascii.lower (joinSegments (s :: rest))).toList ↔
          (Ascii.lower p).toList <+: (Ascii.lower s).toList := by
        cases rest with
        | nil => rw [joinSegments_singleton]
        | cons t rest => rw [Ascii.lower_join_cons_cons, prefix_append_separator hp]
      rw [joinSegments_singleton, hfirst, startsWithIgnoringCase_nil, Bool.and_true, resemblesSegments,
        Bool.and_eq_true, Text.startsWith_iff]
      by_cases hsame : Ascii.sameIgnoringCase s p = true
      · simp [hsame, Ascii.sameIgnoringCase_iff.1 hsame]
      · simp [hsame]
    | cons q more =>
      rw [Ascii.lower_join_cons_cons]
      cases rest with
      | nil =>
        rw [joinSegments_singleton, nil_startsWithIgnoringCase]
        constructor
        · intro h
          exact absurd (h.subset (by simp)) hs
        · simp [resemblesSegments]
      | cons t rest =>
        rw [Ascii.lower_join_cons_cons, prefix_with_separator_iff hp hs, ih (by simp) (by simp) hname.2 hsep.2,
          ← Ascii.sameIgnoringCase_iff, resemblesSegments, Bool.and_eq_true, Bool.and_eq_true, and_or_left]

/-- a lookalike does not start with the segments it resembles -/
theorem not_startsWith_of_resembles {name front : List String} (h : resemblesSegments name front = true) :
    startsWithIgnoringCase ⟨name⟩ ⟨front⟩ = false := by
  fun_induction resemblesSegments name front with
  | case1 s rest p =>
    rw [Bool.and_eq_true, Bool.not_eq_true'] at h
    rw [cons_startsWithIgnoringCase, h.2, Bool.false_and]
  | case2 s rest p q more ih =>
    rw [Bool.and_eq_true] at h
    rw [cons_startsWithIgnoringCase, ih h.2, Bool.and_false]
  | case3 => cases h

/-! ## Reading a namespace -/

/-- a text reads as a namespace if it is a row of labels, separators at its ends aside -/
theorem parse_eq_ok_iff {s : String} {n : Namespace} :
    parse s = .ok n ↔ n.segments = splitSegments (trimSeparators s) ∧ n.segments.all isLabel = true := by
  rw [parse, ofSegments_eq_ok_iff]
  constructor
  · rintro ⟨hn, -, hall⟩
    exact ⟨hn, hn ▸ hall⟩
  · rintro ⟨hn, hall⟩
    exact ⟨hn, splitSegments_ne_nil _, hn ▸ hall⟩

theorem exists_parse_iff {s : String} :
    (∃ n, parse s = .ok n) ↔ (splitSegments (trimSeparators s)).all isLabel = true := by
  simp only [parse_eq_ok_iff]
  -- with the text in sight, unification would run the split
  generalize splitSegments (trimSeparators s) = segments
  constructor
  · rintro ⟨n, rfl, hall⟩
    exact hall
  · intro hall
    exact ⟨⟨segments⟩, rfl, hall⟩

theorem segments_of_parse {s : String} {n : Namespace} (h : parse s = .ok n) :
    n.segments ≠ [] ∧ n.segments.all isLabel = true ∧ trimSeparators s = joinSegments n.segments := by
  obtain ⟨hn, hall⟩ := parse_eq_ok_iff.1 h
  refine ⟨hn ▸ splitSegments_ne_nil _, hall, ?_⟩
  rw [hn, joinSegments_split]

theorem parse_trimSeparators (s : String) : parse (trimSeparators s) = parse s := by
  rw [parse, parse, trimSeparators_trimSeparators]

end Namespace

/-! ## The decision -/

namespace Policy

variable {text : String} {front n : Namespace}

/-- a row of labels is excluded if it starts with the segments of the prefix, and also if it is a lookalike of it -/
theorem excludes_iff (whitelist : NamespaceSet) (hfront : Namespace.parse text = .ok front) {name : List String}
    (hne : name ≠ []) (hname : name.all isLabel = true) :
    (make whitelist text).excludes (joinSegments name) = true ↔
      Namespace.startsWithIgnoringCase ⟨name⟩ front = true ∨
        Namespace.resemblesSegments name front.segments = true := by
  obtain ⟨hfrontne, hlabels, htext⟩ := Namespace.segments_of_parse hfront
  rw [excludes, make, htext, Text.startsWith_iff]
  exact Namespace.lower_prefix_iff hne hfrontne
    (fun s hs => separator_not_mem_label (List.all_eq_true.1 hname s hs))
    fun s hs => separator_not_mem_label (List.all_eq_true.1 hlabels s hs)

/-- **Self-exclusion by segments.** Let the prefix read as a namespace, and let a candidate have the shape of a
namespace and read as one. It is moved exactly if it is listed, does not start with the segments of the prefix, and is no
lookalike of the prefix. The relocator takes it for prefixed exactly if it starts with these segments, which no lookalike
does: a listed lookalike is the one kind of name that is neither moved nor prefixed. -/
theorem moves_iff_segmentwise (whitelist : NamespaceSet) (vendorDir : String) {c : String}
    (hfront : Namespace.parse text = .ok front) (hshape : looksLikeNamespace c = true)
    (hn : Namespace.parse (trimSeparators c) = .ok n) :
    ((make whitelist text).moves c = true ↔
        trimSeparators c ∈ whitelist.names ∧ n.startsWithIgnoringCase front = false ∧ n.resembles front = false) ∧
      (n.resembles front = true → n.startsWithIgnoringCase front = false) ∧
      (Relocator.make front vendorDir).isPrefixed c = n.startsWithIgnoringCase front := by
  obtain ⟨hne, hlabels, htrim⟩ := Namespace.segments_of_parse hn
  rw [trimSeparators_trimSeparators] at htrim
  refine ⟨?_, Namespace.not_startsWith_of_resembles, ?_⟩
  · have hspared : (make whitelist text).excludes (joinSegments n.segments) = false ↔
        n.startsWithIgnoringCase front = false ∧ n.resembles front = false := by
      rw [← Bool.not_eq_true, excludes_iff whitelist hfront hne hlabels, not_or, Bool.not_eq_true, Bool.not_eq_true]
      rfl
    rw [moves, hshape, Bool.true_and, Bool.and_eq_true, Bool.not_eq_true', htrim, hspared, NamespaceSet.contains,
      trimSeparators_join hne hlabels, List.contains_iff_mem, and_comm]
    rfl
  · rw [Namespace.parse_trimSeparators] at hn
    rw [Relocator.isPrefixed, hn]
    rfl

/-- under the prefix `Custom\VendorPrefix` the listed `Custom\VendorPrefixes` is a lookalike: it is not moved, and no
directory of it is taken for moved; the listed `\CUSTOM\Vendor` is moved -/
theorem moves_iff_segmentwise_sample :
    (make ⟨["CUSTOM\\Vendor", "Custom\\VendorPrefixes"]⟩ "Custom\\VendorPrefix\\").moves "Custom\\VendorPrefixes\\" =
        false ∧
      (Relocator.make ⟨["Custom", "VendorPrefix"]⟩ "/vendor").isPrefixed "Custom\\VendorPrefixes\\" = false ∧
      (make ⟨["CUSTOM\\Vendor", "Custom\\VendorPrefixes"]⟩ "Custom\\VendorPrefix\\").moves "\\CUSTOM\\Vendor" = true := by
  have hfront : Namespace.parse "Custom\\VendorPrefix\\" = .ok ⟨["Custom", "VendorPrefix"]⟩ :=
    Namespace.parse_eq_ok_iff.2 (by decide +kernel)
  have hlookalike : Namespace.parse (trimSeparators "Custom\\VendorPrefixes\\") = .ok ⟨["Custom", "VendorPrefixes"]⟩ :=
    Namespace.parse_eq_ok_iff.2 (by decide +kernel)
  have hother : Namespace.parse (trimSeparators "\\CUSTOM\\Vendor") = .ok ⟨["CUSTOM", "Vendor"]⟩ :=
    Namespace.parse_eq_ok_iff.2 (by decide +kernel)
  obtain ⟨hmoves, -, hprefixed⟩ := moves_iff_segmentwise ⟨["CUSTOM\\Vendor", "Custom\\VendorPrefixes"]⟩ "/vendor"
    hfront (by decide +kernel) hlookalike
  refine ⟨?_, hprefixed.trans (by decide +kernel), ?_⟩
  · rw [← Bool.not_eq_true, hmoves]
    decide +kernel
  · exact (moves_iff_segmentwise ⟨["CUSTOM\\Vendor", "Custom\\VendorPrefixes"]⟩ "/vendor" hfront (by decide +kernel)
      hother).1.2 (by decide +kernel)

end Policy

end Isolation
