/-
Class names in string literals keep up with class names in code. A reference is decided on its segments, a literal on the
characters of its value; the two agree on every class of a namespace that is moved.

- `beforeLastSeparator_append`, `exists_last_separator`: what stands in front of the last separator of a value.
- `isMemberText_name`: a value that spells a class of a moved namespace, with or without a leading separator.
- `insertion_written`: the edit of a literal goes where the first character behind its leading separators is written.
- `listed_of_editLiteral`: a literal is edited only for a namespace in the whitelist.
- `literal_follows_reference`: a literal is edited with the reference, at the first character of the namespace.
-/
import Isolation.Proofs.Prefixing.LiteralEdits

namespace Isolation

/-! ## How a literal opens -/

namespace Literal

/-- the first characters of a literal: a marker or none, the opening quote, and separators -/
def IsOpening (style : QuoteStyle) (opening : List Char) : Prop :=
  ∃ m lead, IsMarker m ∧ (∀ c ∈ lead, c = separator) ∧ opening = m ++ style.quote :: lead

end Literal

namespace Prefixing

open Literal

variable {policy : Policy} {space : List String} {last : String}

/-! ## The last separator of a value -/

/-- a search from the end for the last separator passes over characters that are none -/
theorem passed_over {cs : List Char} (h : separator ∉ cs) : ∀ c ∈ cs.reverse, decide (c ≠ separator) = true := by
  intro c hc
  apply decide_eq_true
  rintro rfl
  exact h (List.mem_reverse.1 hc)

theorem beforeLastSeparator_append {front rest : List Char} (h : separator ∉ rest) :
    beforeLastSeparator (front ++ separator :: rest) = front := by
  have hreverse : (front ++ separator :: rest).reverse = rest.reverse ++ separator :: front.reverse := by simp
  rw [beforeLastSeparator, hreverse, List.dropWhile_append_of_pos (passed_over h)]
  simp

theorem exists_last_separator {cs : List Char} (h : separator ∈ cs) :
    ∃ front rest, cs = front ++ separator :: rest ∧ separator ∉ rest := by
  obtain ⟨rest, front, hreverse, hnot⟩ := List.eq_append_cons_of_mem (List.mem_reverse.2 h)
  refine ⟨front.reverse, rest.reverse, ?_, by simpa using hnot⟩
  rw [← List.reverse_reverse cs, hreverse]
  simp

/-- without a separator there is nothing in front of one -/
theorem beforeLastSeparator_of_notMem {cs : List Char} (h : separator ∉ cs) : beforeLastSeparator cs = [] := by
  rw [beforeLastSeparator, List.dropWhile_eq_nil_iff.2 (passed_over h)]
  rfl

/-! ## References and values that name a class -/

/-- a reference is rewritten only if the namespace in front of its last segment is moved -/
theorem moves_of_editReference {context : Context} {name : WrittenName} (hne : space ≠ [])
    (hlabels : space.all isLabel = true) (hsegments : name.segments = space ++ [last])
    (h : editReference policy context name ≠ []) : policy.moves (joinSegments space ++ "\\") = true := by
  by_contra hnot
  apply h
  rw [editReference_eq_nil, hsegments, List.dropLast_concat, Policy.prefixSegments_labels hne hlabels, if_neg hnot]
  exact .inr (.inr (.inr rfl))

/-- a value that spells a class of a moved namespace, behind any number of separators -/
theorem isMemberText_name {value : String} {lead : List Char} (hne : space ≠ []) (hlabels : space.all isLabel = true)
    (hlast : isLabel last = true) (hlead : ∀ c ∈ lead, c = separator)
    (hvalue : value.toList = lead ++ (joinSegments (space ++ [last])).toList)
    (hmoves : policy.moves (joinSegments space ++ "\\") = true) : isMemberText policy value = true := by
  have hsplit : value.toList = lead ++ (joinSegments space).toList ++ separator :: last.toList := by
    rw [hvalue, joinSegments_append _ _ hne (by simp), joinSegments_singleton]
    simp [separator]
  have htrim : trimSeparators (String.ofList (lead ++ (joinSegments space).toList)) = joinSegments space := by
    have htext : (String.ofList (lead ++ (joinSegments space).toList)).toList =
        lead ++ ((joinSegments space).toList ++ []) := by simp
    exact trimSeparators_between htext hlead (by simp) (anchored_joinLabels hne hlabels)
  rw [isMemberText, hsplit, beforeLastSeparator_append (separator_not_mem_label hlast), htrim]
  exact hmoves

/-- behind the leading separators such a value starts as the namespace does -/
theorem head?_name {value : String} {lead : List Char} (hne : space ≠ []) (hlabels : space.all isLabel = true)
    (hlead : ∀ c ∈ lead, c = separator) (hvalue : value.toList = lead ++ (joinSegments (space ++ [last])).toList) :
    (value.toList.dropWhile (· == separator)).head? = (joinSegments space).toList.head? := by
  obtain ⟨c, hc, hcne⟩ := (anchored_joinLabels hne hlabels).first
  obtain ⟨cs, hcs⟩ := List.head?_eq_some_iff.1 hc
  have hall : ∀ d ∈ lead, (d == separator) = true := by simpa using hlead
  rw [hvalue, List.dropWhile_append_of_pos hall, joinSegments_append _ _ hne (by simp)]
  simp [hcs, hcne]

/-! ## Where a literal is edited -/

/-- **The edit of a literal** goes where the first character of its value is written that is no separator. -/
theorem insertion_written {raw : String} {start : Nat} {l : Literal} (hread : Literal.ofSource? raw start = some l)
    (hmoved : (isNamespaceText policy l.value || isMemberText policy l.value) = true) :
    ∃ opening c rest, IsOpening l.style opening ∧ raw.toList = opening ++ c :: rest ∧
      (l.value.toList.dropWhile (· == separator)).head? = some c ∧
      editLiteral policy l =
        [Edit.insertion (start + byteLength opening) (l.encodeNamespace policy.vendorPrefix)] := by
  obtain ⟨m, style, content, hm, hraw, rfl⟩ := ofSource?_content hread
  obtain ⟨u, w, rfl, hleading, hhead⟩ := exists_leading style content
  have hvalue := value_ofContent start m style (u ++ w)
  rw [hleading.values] at hvalue
  obtain ⟨c, rest, hdrop, hword⟩ := moved_head hmoved
  have hfirst : (values style w).head? = some c := by
    rw [hvalue, String.toList_ofList, (span_leading hhead).2] at hdrop
    rw [hdrop]
    rfl
  -- a word character is spelled as it is
  obtain ⟨cs, rfl⟩ := content_of_word hfirst hword
  have hne : c ≠ separator := by
    rintro rfl
    exact absurd hword (by decide)
  have hoffset := insertionOffset_ofContent start (m := m) hleading hfirst hne
  refine ⟨m ++ style.quote :: u, c, cs ++ [style.quote], ⟨m, u, hm, hleading.separators, rfl⟩, ?_, by rw [hdrop]; rfl, ?_⟩
  · simpa using hraw
  · rw [editLiteral, if_pos hmoved, hoffset, byteLength_opening hm]
    simp only [Nat.add_assoc]

/-! ## What a literal is edited for -/

/-- a name that is moved is in the whitelist, and does not start with the prefix -/
theorem listed_of_moves {candidate : String} (h : policy.moves candidate = true) :
    trimSeparators candidate ∈ policy.namespaces.names ∧ policy.excludes (trimSeparators candidate) = false := by
  rw [Policy.moves, Bool.and_eq_true, Bool.and_eq_true, NamespaceSet.contains, trimSeparators_trimSeparators] at h
  obtain ⟨⟨-, hspared⟩, hlisted⟩ := h
  exact ⟨by simpa using hlisted, by simpa using hspared⟩

/-- a literal is edited only if its value, or what stands in front of the last separator of its value, is in the whitelist
and does not start with the prefix, separators at the ends aside -/
theorem listed_of_editLiteral {l : Literal} (h : editLiteral policy l ≠ []) :
    ∃ text, (text = trimSeparators l.value ∨
        ∃ part rest, l.value = part ++ "\\" ++ rest ∧ separator ∉ rest.toList ∧ text = trimSeparators part) ∧
      text ∈ policy.namespaces.names ∧ policy.excludes text = false := by
  have hmoved : isNamespaceText policy l.value = true ∨ isMemberText policy l.value = true := by
    by_contra hnot
    rw [not_or, Bool.not_eq_true, Bool.not_eq_true] at hnot
    exact h (editLiteral_eq_nil.2 hnot)
  rcases hmoved with hspace | hmember
  · rw [isNamespaceText, Bool.and_eq_true] at hspace
    have hlisted := listed_of_moves hspace.2
    refine ⟨trimSeparators l.value, .inl rfl, ?_⟩
    split at hlisted
    · exact hlisted
    · rwa [trimSeparators_append_separator] at hlisted
  · rw [isMemberText] at hmember
    have hlisted := listed_of_moves hmember
    rw [trimSeparators_append_separator, trimSeparators_trimSeparators] at hlisted
    by_cases hsep : separator ∈ l.value.toList
    · obtain ⟨front, rest, hvalue, hrest⟩ := exists_last_separator hsep
      rw [hvalue, beforeLastSeparator_append hrest] at hlisted
      refine ⟨_, .inr ⟨String.ofList front, String.ofList rest, ?_, by simpa using hrest, rfl⟩, hlisted⟩
      apply String.toList_inj.mp
      simp [hvalue, separator]
    · -- a value without separator has nothing in front of one, and nothing is no namespace
      rw [beforeLastSeparator_of_notMem hsep] at hmember
      exact absurd (looksLike_of_moves hmember) (by decide)

/-- **Class names in literals keep up with class names.** If a reference from the root to a class of a namespace is put
under the prefix, then every literal that spells this class, with or without a leading separator, gets exactly one edit:
an insertion where the first character of the namespace is written. And a literal is edited only if its value, or what
stands in front of the last separator of its value, is a namespace in the whitelist that does not start with the prefix,
separators at the ends aside. -/
theorem literal_follows_reference (policy : Policy) :
    (∀ (space : List String) (last : String) (context : Context) (name : WrittenName) (raw : String) (start : Nat)
        (l : Literal), space ≠ [] → space.all isLabel = true → isLabel last = true →
        name.rooted = true → name.segments = space ++ [last] →
        editReference policy context name =
          [⟨name.span, name.text, "\\" ++ (policy.vendorPrefix ++ "\\" ++ joinSegments (space ++ [last]))⟩] →
        Literal.ofSource? raw start = some l →
        (l.value = joinSegments (space ++ [last]) ∨ l.value = "\\" ++ joinSegments (space ++ [last])) →
        ∃ opening c cs rest, IsOpening l.style opening ∧ (joinSegments space).toList = c :: cs ∧
          raw.toList = opening ++ c :: rest ∧
          editLiteral policy l =
            [Edit.insertion (start + byteLength opening) (l.encodeNamespace policy.vendorPrefix)]) ∧
      ∀ l : Literal, editLiteral policy l ≠ [] →
        ∃ text, (text = trimSeparators l.value ∨
            ∃ part rest, l.value = part ++ "\\" ++ rest ∧ separator ∉ rest.toList ∧ text = trimSeparators part) ∧
          text ∈ policy.namespaces.names ∧ policy.excludes text = false := by
  constructor
  · intro space last context name raw start l hne hlabels hlast _ hsegments hreference hread hvalue
    have hrewritten : editReference policy context name ≠ [] := by simp [hreference]
    have hmoves := moves_of_editReference hne hlabels hsegments hrewritten
    obtain ⟨lead, hlead, hchars⟩ : ∃ lead, (∀ c ∈ lead, c = separator) ∧
        l.value.toList = lead ++ (joinSegments (space ++ [last])).toList := by
      rcases hvalue with hvalue | hvalue
      · exact ⟨[], by simp, by simp [hvalue]⟩
      · exact ⟨[separator], by simp, by simp [hvalue, separator]⟩
    have hmember := isMemberText_name hne hlabels hlast hlead hchars hmoves
    have hmoved : (isNamespaceText policy l.value || isMemberText policy l.value) = true := by
      rw [hmember, Bool.or_true]
    obtain ⟨opening, c, rest, hopening, hraw, hfirst, hedit⟩ := insertion_written hread hmoved
    rw [head?_name hne hlabels hlead hchars] at hfirst
    obtain ⟨cs, hcs⟩ := List.head?_eq_some_iff.1 hfirst
    exact ⟨opening, c, cs, rest, hopening, hcs, hraw, hedit⟩
  · intro l h
    exact listed_of_editLiteral h

def classPolicy : Policy := ⟨⟨["Lib"]⟩, "P\\Iso"⟩

/-- a class outside ASCII in a namespace of one segment -/
def classReference : WrittenName := ⟨⟨6, 18⟩, "\\Lib\\Größe", true, false, ["Lib", "Größe"]⟩

/-- the same class in double quotes, its leading separator written twice -/
def classLiteral : Literal := ofContent 30 ['b'] .double "\\\\Lib\\Größe".toList

theorem literal_follows_reference_sample :
    editReference classPolicy {} classReference = [⟨⟨6, 18⟩, "\\Lib\\Größe", "\\P\\Iso\\Lib\\Größe"⟩] ∧
      (∃ opening rest, "b\"\\\\Lib\\Größe\"".toList = opening ++ 'L' :: rest ∧
        editLiteral classPolicy classLiteral =
          [Edit.insertion (30 + byteLength opening) "P\\\\Iso\\\\"]) ∧
      ∃ text ∈ classPolicy.namespaces.names, classPolicy.excludes text = false := by
  obtain ⟨hedited, hlisted⟩ := literal_follows_reference classPolicy
  have hreference : editReference classPolicy {} classReference =
      [⟨⟨6, 18⟩, "\\Lib\\Größe", "\\P\\Iso\\Lib\\Größe"⟩] := by decide +kernel
  obtain ⟨opening, c, cs, rest, -, hc, hraw, hedit⟩ := hedited ["Lib"] "Größe" {} classReference
    "b\"\\\\Lib\\Größe\"" 30 classLiteral (by decide) (by decide +kernel) (by decide +kernel) rfl rfl hreference
    (ofSource?_ofContent _ (.inr (.inl rfl)) rfl) (.inr (by decide +kernel))
  obtain rfl : 'L' = c := by
    have hfirst : (joinSegments ["Lib"]).toList = ['L', 'i', 'b'] := by decide +kernel
    rw [hfirst] at hc
    exact (List.cons_eq_cons.1 hc).1
  have htext : classLiteral.encodeNamespace classPolicy.vendorPrefix = "P\\\\Iso\\\\" := by decide +kernel
  rw [htext] at hedit
  obtain ⟨text, -, hmem, hspared⟩ := hlisted classLiteral (by rw [hedit]; simp)
  exact ⟨hreference, ⟨opening, rest, hraw, hedit⟩, text, hmem, hspared⟩

end Prefixing

end Isolation
