/-
What a policy decides about a namespace that is a row of labels.

- `looksLikeNamespace_closed`: such a namespace, asked for with a separator at its end, has the shape of a namespace
  exactly when it is ASCII.
- `moves_closed`: so it is moved exactly when it is ASCII, does not start with the prefix and is in the whitelist.
- `prefix_of_join`: the text of a namespace and a separator stand in front of a longer name only if its segments do.
-/
import Isolation.Proofs.Name.Exclusion

namespace Isolation

/-! ## ASCII characters -/

/-- every character of the text is ASCII -/
def Ascii.isAsciiText (s : String) : Bool := s.toList.all Ascii.isAscii

theorem Ascii.isLetter_iff {c : Char} : Ascii.isLetter c = true ↔
    (97 ≤ c.toNat ∧ c.toNat ≤ 122) ∨ (65 ≤ c.toNat ∧ c.toNat ≤ 90) := by
  simp only [Ascii.isLetter, Bool.or_eq_true, Bool.and_eq_true, decide_eq_true_eq, Char.le_def, UInt32.le_iff_toNat_le]
  rfl

theorem Ascii.isDigit_iff {c : Char} : Ascii.isDigit c = true ↔ 48 ≤ c.toNat ∧ c.toNat ≤ 57 := by
  simp only [Ascii.isDigit, Bool.and_eq_true, decide_eq_true_eq, Char.le_def, UInt32.le_iff_toNat_le]
  rfl

theorem Ascii.isAscii_of_isWord {c : Char} (h : Ascii.isWord c = true) : Ascii.isAscii c = true := by
  simp only [Ascii.isWord, Bool.or_eq_true, Ascii.isLetter_iff, Ascii.isDigit_iff, decide_eq_true_eq] at h
  simp only [Ascii.isAscii, decide_eq_true_eq]
  rcases h with (h | h) | rfl
  · omega
  · omega
  · decide

/-- a character of a label may stand in a namespace that is moved exactly when it is ASCII -/
theorem isNamespaceChar_of_labelRest {c : Char} (h : isLabelRest c = true) :
    isNamespaceChar c = Ascii.isAscii c := by
  have hne : c ≠ separator := by
    rintro rfl
    rw [separator_not_labelRest] at h
    cases h
  cases hword : Ascii.isWord c with
  | true => rw [isNamespaceChar, hword, Ascii.isAscii_of_isWord hword, Bool.true_or]
  | false =>
    have hascii : Ascii.isAscii c = false := by simpa [isLabelRest, hword] using h
    simp [isNamespaceChar, hword, hne, hascii]

theorem not_startsWithDigit_of_label {s : String} (h : isLabel s = true) : startsWithDigit s.toList = false := by
  obtain ⟨c, cs, hs, hc, -⟩ := isLabel_cons h
  rw [hs, startsWithDigit]
  by_contra hdigit
  rw [Bool.not_eq_false, Ascii.isDigit_iff] at hdigit
  simp only [isLabelStart, Bool.or_eq_true, Ascii.isLetter_iff, decide_eq_true_eq, Bool.not_eq_true',
    Ascii.isAscii, decide_eq_false_iff_not] at hc
  rcases hc with (hc | rfl) | hc
  · omega
  · exact absurd hdigit (by decide)
  · omega

/-! ## The shape of a row of labels -/

variable {segments : List String}

/-- separators around a text whose ends are none are trimmed away -/
theorem trimSeparators_between {text s : String} {lead back : List Char} (htext : text.toList = lead ++ (s.toList ++ back))
    (hlead : ∀ c ∈ lead, c = separator) (hback : ∀ c ∈ back, c = separator) (h : Anchored s.toList) :
    trimSeparators text = s := by
  obtain ⟨c, hc, hne⟩ := h.first
  obtain ⟨d, hd, hdne⟩ := h.last
  have hdrop : text.toList.dropWhile (· == separator) = s.toList ++ back := by
    rw [htext, List.dropWhile_append_of_pos (by simpa using hlead)]
    cases hs : s.toList with
    | nil => simp [hs] at hc
    | cons e es =>
      obtain rfl : e = c := by simpa [hs] using hc
      simp [hne]
  have hempty : Text.trimEndChars (· == separator) back = [] := by
    have hall : ∀ e ∈ back.reverse, (e == separator) = true := by simpa using hback
    rw [Text.trimEndChars, List.dropWhile_eq_nil_iff.2 hall, List.reverse_nil]
  apply String.toList_inj.mp
  rw [trimSeparators_toList, hdrop, trimEndChars_append_of_last _ _ _ d hd (by simpa using hdne), hempty,
    List.append_nil]

theorem trimSeparators_of_anchored {s : String} (back : String) (h : Anchored s.toList)
    (hback : ∀ c ∈ back.toList, c = separator) : trimSeparators (s ++ back) = s := by
  have htext : (s ++ back).toList = [] ++ (s.toList ++ back.toList) := by simp
  exact trimSeparators_between htext (by simp) hback h

theorem trimSeparators_trimSeparators (s : String) : trimSeparators (trimSeparators s) = trimSeparators s := by
  obtain ⟨-, -, -, -, -, hempty | hanchored⟩ := trimSeparators_parts s
  · rw [hempty]
    rfl
  · have htrim := trimSeparators_of_anchored "" hanchored (by simp)
    rwa [String.append_empty] at htrim

/-- a separator at the end is trimmed away with the others -/
theorem trimSeparators_append_separator (s : String) : trimSeparators (s ++ "\\") = trimSeparators s := by
  obtain ⟨lead, back, hs, hlead, hback, hempty | hanchored⟩ := trimSeparators_parts s
  · -- separators only
    have hall : ∀ c ∈ (s ++ "\\").toList, (c == separator) = true := by
      intro c hc
      rw [String.toList_append, hs, hempty] at hc
      simp only [List.mem_append] at hc
      rcases hc with ((hc | hc) | hc) | hc
      · simpa using hlead c hc
      · simp at hc
      · simpa using hback c hc
      · simpa [separator] using hc
    apply String.toList_inj.mp
    rw [hempty, trimSeparators_toList, List.dropWhile_eq_nil_iff.2 hall]
    rfl
  · have htext : (s ++ "\\").toList = lead ++ ((trimSeparators s).toList ++ (back ++ [separator])) := by
      rw [String.toList_append, hs]
      simp [separator]
    refine trimSeparators_between htext hlead ?_ hanchored
    intro c hc
    rcases List.mem_append.1 hc with hc | hc
    · exact hback c hc
    · exact List.mem_singleton.1 hc

theorem trimSeparators_join (hne : segments ≠ []) (h : segments.all isLabel = true) :
    trimSeparators (joinSegments segments) = joinSegments segments := by
  have htrim := trimSeparators_of_anchored "" (anchored_joinLabels hne h) (by simp)
  rwa [String.append_empty] at htrim

theorem trimSeparators_closed (hne : segments ≠ []) (h : segments.all isLabel = true) :
    trimSeparators (joinSegments segments ++ "\\") = joinSegments segments :=
  trimSeparators_of_anchored "\\" (anchored_joinLabels hne h) (by simp [separator])

/-- a separator between two texts is where they are cut -/
theorem splitSegments_append (s t : String) : splitSegments (s ++ "\\" ++ t) = splitSegments s ++ splitSegments t := by
  have hchars : (s ++ "\\" ++ t).toList = s.toList ++ separator :: t.toList := by simp [separator]
  rw [splitSegments, Text.splitAt, hchars, List.splitOn_append_cons_self, List.map_append]
  rfl

/-- the characters of a row of labels are those of its labels and separators -/
theorem mem_joinSegments {c : Char} (hc : c ∈ (joinSegments segments).toList) :
    c = separator ∨ ∃ s ∈ segments, c ∈ s.toList := by
  induction segments with
  | nil => simp [joinSegments_toList, List.intercalate] at hc
  | cons s rest ih =>
    cases rest with
    | nil =>
      rw [joinSegments_singleton] at hc
      exact .inr ⟨s, by simp, hc⟩
    | cons t rest =>
      rw [joinSegments_cons_cons, String.toList_append, String.toList_append, List.mem_append, List.mem_append] at hc
      rcases hc with (hc | hc) | hc
      · exact .inr ⟨s, by simp, hc⟩
      · exact .inl (by simpa [separator] using hc)
      · rcases ih hc with hsep | ⟨u, hu, hcu⟩
        · exact .inl hsep
        · exact .inr ⟨u, List.mem_cons_of_mem s hu, hcu⟩

/-- the segments of a row of labels with a separator at its end -/
theorem splitSegments_closed (hne : segments ≠ []) (h : segments.all isLabel = true) :
    splitSegments (joinSegments segments ++ "\\") = segments ++ [""] := by
  have hsplit := splitSegments_append (joinSegments segments) ""
  rwa [String.append_empty, splitSegments_joinLabels hne h] at hsplit

/-- a row of labels with a separator at its end has the shape of a namespace if it is ASCII -/
theorem looksLikeNamespace_closed (hne : segments ≠ []) (h : segments.all isLabel = true) :
    looksLikeNamespace (joinSegments segments ++ "\\") = Ascii.isAsciiText (joinSegments segments) := by
  have hlabel : ∀ s ∈ segments, isLabel s = true := List.all_eq_true.1 h
  obtain ⟨c, hc, hcne⟩ := (anchored_joinLabels hne h).first
  have hparts : ((joinSegments segments ++ "\\").toList.splitOn separator).filter (!·.isEmpty) =
      segments.map String.toList := by
    have hsplit := congrArg (List.map String.toList) (splitSegments_closed hne h)
    rw [splitSegments, Text.splitAt, List.map_map] at hsplit
    have hparts : (joinSegments segments ++ "\\").toList.splitOn separator = segments.map String.toList ++ [[]] := by
      simpa using hsplit
    rw [hparts, List.filter_append, List.filter_eq_self.2]
    · simp
    · intro part hpart
      obtain ⟨s, hs, rfl⟩ := List.mem_map.1 hpart
      obtain ⟨d, ds, hds, -, -⟩ := isLabel_cons (hlabel s hs)
      simp [hds]
  have hchars : (joinSegments segments ++ "\\").toList.all isNamespaceChar =
      Ascii.isAsciiText (joinSegments segments) := by
    rw [String.toList_append, List.all_append]
    have hlast : "\\".toList.all isNamespaceChar = true := by decide
    rw [hlast, Bool.and_true, Ascii.isAsciiText]
    rw [Bool.eq_iff_iff, List.all_eq_true, List.all_eq_true]
    refine forall₂_congr fun d hd => ?_
    rw [← Bool.eq_iff_iff]
    rcases mem_joinSegments hd with rfl | ⟨s, hs, hds⟩
    · decide
    · exact isNamespaceChar_of_labelRest (isLabel_rest (hlabel s hs) d hds)
  have hdigit : (segments.map String.toList).any startsWithDigit = false := by
    rw [List.any_eq_false]
    intro part hpart
    obtain ⟨s, hs, rfl⟩ := List.mem_map.1 hpart
    rw [not_startsWithDigit_of_label (hlabel s hs)]
    simp
  have hhead : (joinSegments segments ++ "\\").toList.head? = some c := by
    rw [String.toList_append, List.head?_append, hc]
    rfl
  have hopen : (some c == some separator) = false := by simpa using hcne
  have hsome : (segments.map String.toList).isEmpty = false := by simpa using hne
  rw [looksLikeNamespace, looksLikeNamespaceChars, hparts, hchars, hdigit, hhead, hopen, hsome]
  simp [separator]

/-! ## The decision -/

namespace Policy

variable {policy : Policy}

/-- **What is moved.** A row of labels is moved exactly when it is ASCII, does not start with the prefix and is in the
whitelist. -/
theorem moves_closed (hne : segments ≠ []) (h : segments.all isLabel = true) :
    policy.moves (joinSegments segments ++ "\\") = true ↔ Ascii.isAsciiText (joinSegments segments) = true ∧
      policy.excludes (joinSegments segments) = false ∧ joinSegments segments ∈ policy.namespaces.names := by
  rw [moves, looksLikeNamespace_closed hne h, trimSeparators_closed hne h, NamespaceSet.contains,
    trimSeparators_join hne h]
  simp [and_assoc]

theorem prefixSegments_labels (hne : segments ≠ []) (h : segments.all isLabel = true) :
    policy.prefixSegments segments =
      if policy.moves (joinSegments segments ++ "\\") then some (splitSegments policy.vendorPrefix ++ segments)
      else none := by
  rw [prefixSegments, if_neg (by simpa using hne), trimSeparators_join hne h]

/-- the same of its segments -/
theorem prefixSegments_isSome_iff (h : segments.all isLabel = true) :
    (policy.prefixSegments segments).isSome = true ↔ segments ≠ [] ∧ Ascii.isAsciiText (joinSegments segments) = true ∧
      policy.excludes (joinSegments segments) = false ∧ joinSegments segments ∈ policy.namespaces.names := by
  by_cases hne : segments = []
  · simp [hne, prefixSegments_nil]
  · rw [prefixSegments_labels hne h, ← moves_closed hne h]
    split <;> simp_all

end Policy

/-! ## Names in front of names -/

/-- a row of labels and a separator stand in front of another name only if the labels do -/
theorem prefix_of_join {a b : List String} (ha : a ≠ []) (hla : a.all isLabel = true)
    (hlb : b.all isLabel = true) (h : (joinSegments a ++ "\\").toList <+: (joinSegments b).toList) :
    a <+: b ∧ a ≠ b := by
  obtain ⟨rest, hrest⟩ := h
  have hb : b ≠ [] := by
    rintro rfl
    simp [joinSegments_toList, List.intercalate] at hrest
  have htext : joinSegments b = joinSegments a ++ "\\" ++ String.ofList rest := by
    apply String.toList_inj.mp
    rw [String.toList_append, String.toList_ofList, hrest]
  have hsplit : b = a ++ splitSegments (String.ofList rest) := by
    rw [← splitSegments_joinLabels hb hlb, htext, splitSegments_append, splitSegments_joinLabels ha hla]
  refine ⟨⟨_, hsplit.symm⟩, fun heq => splitSegments_ne_nil (String.ofList rest) ?_⟩
  rw [← heq] at hsplit
  simpa using hsplit

end Isolation
