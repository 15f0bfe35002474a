/-
What the edit of a string literal means at run time.

- `moved_head`: a literal is moved only if a word character comes behind the leading separators of its value.
- `applyAll_insertion`: making an insertion puts its text at its offset and keeps the rest.
- `value_edited_iff`: the edited literal is read in the same quotes, and its value is the old one with the vendor prefix
  and a separator behind the leading separators. It is not where a leading separator is spelled by a single backslash
  in double quotes and the prefix starts like an escape.
-/
import Isolation.Proofs.Prefixing.SecondWalk
import Isolation.Proofs.Source.QuotedValue

namespace Isolation

/-! ## The value of a moved literal -/

/-- what has the shape of a namespace holds namespace characters only, and not only separators -/
theorem looksLikeNamespace_chars {s : String} (h : looksLikeNamespace s = true) :
    (∀ c ∈ s.toList, isNamespaceChar c = true) ∧ ∃ c ∈ s.toList, c ≠ separator := by
  simp only [looksLikeNamespace, looksLikeNamespaceChars, Bool.and_eq_true, List.all_eq_true] at h
  obtain ⟨⟨⟨⟨⟨-, hchars⟩, -⟩, hsegments⟩, -⟩, -⟩ := h
  refine ⟨hchars, ?_⟩
  by_contra hnone
  push Not at hnone
  have hempty : ∀ segment ∈ s.toList.splitOn separator, segment = [] := by
    revert hnone
    generalize s.toList = cs
    intro hnone
    induction cs with
    | nil => simp
    | cons c cs ih =>
      rw [List.forall_mem_cons] at hnone
      rw [List.splitOn_cons_eq_if_modifyHead, if_pos (by simpa using hnone.1)]
      simpa using ih hnone.2
  have hfilter : (s.toList.splitOn separator).filter (!·.isEmpty) = [] := by
    rw [List.filter_eq_nil_iff]
    intro segment hsegment
    simp [hempty segment hsegment]
  simp [hfilter] at hsegments

theorem isWord_of_namespaceChar {c : Char} (h : isNamespaceChar c = true) (hne : c ≠ separator) :
    Ascii.isWord c = true := by
  simpa [isNamespaceChar, hne] using h

/-- a text that is not made of separators only, at its first other character -/
theorem exists_first {cs : List Char} (h : ∃ c ∈ cs, c ≠ separator) :
    ∃ c rest, cs.dropWhile (· == separator) = c :: rest ∧ c ≠ separator := by
  cases hdrop : cs.dropWhile (· == separator) with
  | nil =>
    rw [List.dropWhile_eq_nil_iff] at hdrop
    obtain ⟨c, hc, hne⟩ := h
    exact absurd (by simpa using hdrop c hc) hne
  | cons c rest =>
    have hhead := List.head_dropWhile_not (p := (· == separator)) (l := cs) (by simp [hdrop])
    exact ⟨c, rest, rfl, by simpa [hdrop] using hhead⟩

namespace Prefixing

variable {policy : Policy}

theorem trimSeparators_subset {s : String} {c : Char} (h : c ∈ (trimSeparators s).toList) : c ∈ s.toList := by
  rw [trimSeparators_toList, Text.trimEndChars, List.mem_reverse] at h
  have hdrop := (List.dropWhile_suffix _).subset h
  rw [List.mem_reverse] at hdrop
  exact (List.dropWhile_suffix _).subset hdrop

theorem looksLike_of_moves {s : String} (h : policy.moves s = true) : looksLikeNamespace s = true := by
  rw [Policy.moves, Bool.and_eq_true, Bool.and_eq_true] at h
  exact h.1.1

theorem beforeLastSeparator_prefix (cs : List Char) : beforeLastSeparator cs <+: cs := by
  have hsuffix : (cs.reverse.dropWhile (· ≠ separator)).drop 1 <:+ cs.reverse :=
    (List.drop_suffix 1 _).trans (List.dropWhile_suffix _)
  simpa [beforeLastSeparator] using List.reverse_prefix.2 hsuffix

/-- a literal is moved only if a word character comes behind the leading separators of its value -/
theorem moved_head {value : String}
    (h : (isNamespaceText policy value || isMemberText policy value) = true) :
    ∃ c rest, value.toList.dropWhile (· == separator) = c :: rest ∧ Ascii.isWord c = true := by
  rw [Bool.or_eq_true] at h
  rcases h with h | h
  · rw [isNamespaceText, Bool.and_eq_true] at h
    obtain ⟨hchars, c, hc, hne⟩ := looksLikeNamespace_chars (looksLike_of_moves h.2)
    have hvalue : ∀ d ∈ value.toList,
        d ∈ (if value.toList.getLast? = some separator then value else value ++ "\\").toList := by
      intro d hd
      split
      · exact hd
      · simp [hd]
    have hfirst : ∃ c ∈ value.toList, c ≠ separator := by
      split at hc
      · exact ⟨c, hc, hne⟩
      · rw [String.toList_append, List.mem_append] at hc
        rcases hc with hc | hc
        · exact ⟨c, hc, hne⟩
        · exact absurd (by simpa [separator] using hc) hne
    obtain ⟨d, rest, hdrop, hdne⟩ := exists_first hfirst
    have hmem : d ∈ value.toList := (List.dropWhile_suffix _).subset (hdrop ▸ List.mem_cons_self)
    exact ⟨d, rest, hdrop, isWord_of_namespaceChar (hchars d (hvalue d hmem)) hdne⟩
  · rw [isMemberText] at h
    obtain ⟨hchars, c, hc, hne⟩ := looksLikeNamespace_chars (looksLike_of_moves h)
    have hc : c ∈ beforeLastSeparator value.toList := by
      rw [String.toList_append, List.mem_append] at hc
      rcases hc with hc | hc
      · simpa using trimSeparators_subset hc
      · exact absurd (by simpa [separator] using hc) hne
    obtain ⟨d, rest, hdrop, hdne⟩ := exists_first ⟨c, hc, hne⟩
    -- the first other character is not trimmed away, so it is a namespace character
    have hsplit : (String.ofList (beforeLastSeparator value.toList)).toList =
        (beforeLastSeparator value.toList).takeWhile (· == separator) ++ ([d] ++ rest) := by
      rw [String.toList_ofList, List.singleton_append, ← hdrop, List.takeWhile_append_dropWhile]
    obtain ⟨tail, htail⟩ := trimSeparators_front hsplit (fun e he => by simpa using List.mem_takeWhile_imp he)
      ⟨⟨d, rfl, hdne⟩, ⟨d, rfl, hdne⟩⟩
    have hword := isWord_of_namespaceChar (hchars d (by simp [htail])) hdne
    obtain ⟨back, hback⟩ := beforeLastSeparator_prefix value.toList
    refine ⟨d, rest ++ back, ?_, hword⟩
    rw [← hback, List.dropWhile_append, hdrop]
    rfl

end Prefixing

/-! ## Making an insertion -/

/-- making an insertion puts its text at its offset and keeps the rest -/
theorem Edit.applyAll_insertion (front back : List UInt8) {text : String} (h : text ≠ "") :
    applyAll (front ++ back) [insertion front.length text] = .ok (front ++ Utf8.encode text ++ back) := by
  have hordered : ordered [insertion front.length text] = [insertion front.length text] := by
    simp [ordered, isNoop, insertion, Ne.symm h]
  have hslice : slice? (front ++ back) ⟨front.length, front.length⟩ = some [] := by simp [slice?]
  have hempty : Utf8.encode "" = [] := by decide
  rw [applyAll, hordered]
  simp [applyFrom, insertion, hslice, hempty]

namespace Literal

/-- parts joined, with a separator behind the last one too -/
theorem joinBy_toList (sep : String) {parts : List String} (hne : parts ≠ []) :
    (Text.joinBy sep parts).toList ++ sep.toList = spelled sep parts := by
  rw [Text.joinBy, String.toList_ofList]
  induction parts with
  | nil => exact absurd rfl hne
  | cons s rest ih =>
    cases rest with
    | nil => simp [spelled, List.intercalate]
    | cons t rest =>
      rw [spelled, List.flatMap_cons, ← spelled, ← ih (by simp)]
      simp [List.intercalate_cons_cons]

theorem encodeNamespace_toList (l : Literal) (text : String) :
    (l.encodeNamespace text).toList = spelled l.separatorText (splitSegments text) := by
  rw [encodeNamespace, String.toList_append, joinBy_toList _ (splitSegments_ne_nil text)]

/-- a namespace and a separator behind it, label by label -/
theorem labels_toList (text : String) :
    (splitSegments text).flatMap (fun l => l.toList ++ [separator]) = text.toList ++ [separator] := by
  have hjoin : Text.joinBy "\\" (splitSegments text) = joinSegments (splitSegments text) := rfl
  have hspelled := joinBy_toList "\\" (splitSegments_ne_nil text)
  rw [hjoin, joinSegments_split] at hspelled
  exact hspelled.symm

theorem separatorText_cases (l : Literal) :
    l.separatorText = "\\\\" ∨ (l.separatorText = "\\" ∧ l.style = .single) := by
  rw [separatorText]
  cases hstyle : l.style <;> cases l.escapedSeparators <;> simp

/-- a row of labels starts like an escape if its first label does -/
theorem startsEscape_split {text label : String} {labels : List String} (hlabel : isLabel label = true)
    (hsplit : splitSegments text = label :: labels) : startsEscape label = startsEscape text := by
  obtain ⟨c, cs, hcs, -, -⟩ := isLabel_cons hlabel
  have htext : text.toList = c :: cs ∨ ∃ rest, text.toList = c :: (cs ++ separator :: rest) := by
    rw [← joinSegments_split text, hsplit]
    cases labels with
    | nil => exact .inl (by rw [joinSegments_singleton, hcs])
    | cons next labels =>
      rw [joinSegments_cons_cons]
      exact .inr ⟨(joinSegments (next :: labels)).toList, by simp [hcs, separator]⟩
  rcases htext with htext | ⟨rest, htext⟩
  · rw [startsEscape, startsEscape, htext, hcs]
  · rw [startsEscape, startsEscape, htext, hcs]
    cases cs with
    | nil => simp [show Ascii.isHexDigit separator = false by decide]
    | cons d ds => rfl

/-- an insertion behind the first characters of the content of a literal, wherever the literal stands -/
theorem applyAll_content (style : QuoteStyle) {m u w : List Char} (hm : IsMarker m) {text : String} (hne : text ≠ "")
    (front back : List UInt8) :
    Edit.applyAll (front ++ Utf8.encode (String.ofList (m ++ style.quote :: (u ++ w ++ [style.quote]))) ++ back)
        [Edit.insertion (front.length + m.length + 1 + byteLength u) text] =
      .ok (front ++ Utf8.encode (String.ofList (m ++ style.quote :: (u ++ (text.toList ++ w) ++ [style.quote]))) ++
        back) := by
  have hbefore : front.length + m.length + 1 + byteLength u =
      (front ++ Utf8.encode (String.ofList (m ++ style.quote :: u))).length := by
    rw [List.length_append, Utf8.length_encode, String.toList_ofList, byteLength_opening hm]
    omega
  have hsource : front ++ Utf8.encode (String.ofList (m ++ style.quote :: (u ++ w ++ [style.quote]))) ++ back =
      (front ++ Utf8.encode (String.ofList (m ++ style.quote :: u))) ++
        (Utf8.encode (String.ofList (w ++ [style.quote])) ++ back) := by
    simp only [Utf8.encode_ofList]
    simp
  rw [hsource, hbefore, Edit.applyAll_insertion _ _ hne, Utf8.encode_eq text]
  simp only [Utf8.encode_ofList]
  simp

theorem encodeNamespace_ne (l : Literal) (text : String) : l.encodeNamespace text ≠ "" := by
  intro hempty
  rw [encodeNamespace, String.append_eq_empty_iff] at hempty
  rcases separatorText_cases l with hsep | ⟨hsep, -⟩ <;> (rw [hsep] at hempty; exact absurd hempty.2 (by decide))

end Literal

namespace Prefixing

open Literal

variable {policy : Policy}

/-- a value is cut behind its leading separators -/
theorem span_leading {n : Nat} {vs : List Char} (hhead : vs.head? ≠ some separator) :
    (List.replicate n separator ++ vs).takeWhile (· == separator) = List.replicate n separator ∧
      (List.replicate n separator ++ vs).dropWhile (· == separator) = vs := by
  have hall : ∀ c ∈ List.replicate n separator, (c == separator) = true := by
    intro c hc
    simp [(List.mem_replicate.1 hc).2]
  rw [List.takeWhile_append_of_pos hall, List.dropWhile_append_of_pos hall]
  cases vs with
  | nil => simp
  | cons c vs =>
    have hc : c ≠ separator := by simpa using hhead
    simp [hc]

/-- the value of a content after the insertion, if a single backslash does not join with the prefix -/
theorem values_edited_iff (hp : policy.Labelled) {style : QuoteStyle} {sep : String} {u cs : List Char} {c : Char}
    (hsep : sep = "\\\\" ∨ (sep = "\\" ∧ style = .single)) (hleading : Leading style (c :: cs) u)
    (hc : c ≠ '\\' ∧ c ≠ '\'') :
    values style (u ++ (spelled sep (splitSegments policy.vendorPrefix) ++ c :: cs)) =
        List.replicate (leadCount u) separator ++
          (policy.vendorPrefix.toList ++ separator :: values style (c :: cs)) ↔
      ¬ (style = .double ∧ u.length % 2 = 1 ∧ startsEscape policy.vendorPrefix = true) := by
  have hlabels : ∀ l ∈ splitSegments policy.vendorPrefix, isLabel l = true := List.all_eq_true.1 hp
  obtain ⟨label, labels, hsplit⟩ := List.exists_cons_of_ne_nil (splitSegments_ne_nil policy.vendorPrefix)
  have hlabel : isLabel label = true := hlabels label (by simp [hsplit])
  obtain ⟨s, hs⟩ : ∃ s, sep.toList = '\\' :: s := by
    rcases hsep with rfl | ⟨rfl, -⟩
    · exact ⟨['\\'], rfl⟩
    · exact ⟨[], rfl⟩
  have htext : spelled sep (splitSegments policy.vendorPrefix) ++ c :: cs =
      label.toList ++ '\\' :: (s ++ spelled sep labels ++ c :: cs) := by
    simp [spelled, hsplit, hs]
  have hescape : (escape? style (spelled sep (splitSegments policy.vendorPrefix) ++ c :: cs)).isSome = true ↔
      style = .double ∧ startsEscape policy.vendorPrefix = true := by
    rw [htext, escape?_label hlabel, startsEscape_split hlabel hsplit]
  constructor
  · rintro hvalues ⟨hstyle, hodd, hstarts⟩
    obtain ⟨⟨v, n⟩, hfound⟩ := Option.isSome_iff_exists.1 (hescape.2 ⟨hstyle, hstarts⟩)
    -- the escape stands where the last of the leading separators was
    have hseparator : v = separator := by
      obtain ⟨k, hk⟩ : ∃ k, leadCount u = k + 1 := ⟨u.length / 2, by rw [leadCount]; omega⟩
      rw [hleading.values_joined hodd hfound, hk, Nat.add_sub_cancel, List.replicate_succ', List.append_assoc,
        List.append_cancel_left_eq, List.singleton_append, List.cons_eq_cons] at hvalues
      exact hvalues.1
    rcases escape?_value hfound with hnul | ⟨-, ⟨rest, hrest⟩, -⟩
    · exact absurd (hnul.symm.trans hseparator) (by decide)
    · obtain ⟨d, ds, hd, hslash, -⟩ := isLabel_head hlabel
      rw [htext, hd, hseparator] at hrest
      exact hslash (List.cons_eq_cons.1 hrest).1
  · intro hnot
    have hlone : u.length % 2 = 1 →
        escape? style (spelled sep (splitSegments policy.vendorPrefix) ++ c :: cs) = none := by
      intro hodd
      by_contra hsome
      obtain ⟨hstyle, hstarts⟩ := hescape.1 (Option.isSome_iff_ne_none.2 hsome)
      exact hnot ⟨hstyle, hodd, hstarts⟩
    rw [values_insert hlabels hsep hleading hc hlone, labels_toList]
    simp

/-- **The value of an edited literal.** Let the prefix be a row of labels. If a literal is moved, its edit can be made
wherever the literal stands; the result is read in the same quotes, and its value is the old one with the prefix and a
separator behind the leading separators, except where the last of these is spelled by a single backslash in double
quotes and the prefix starts like an escape. -/
theorem value_edited_iff (hp : policy.Labelled) {raw : String} {start : Nat} {l : Literal} {e : Edit}
    (hread : Literal.ofSource? raw start = some l) (he : e ∈ editLiteral policy l) :
    ∃ raw' l', (∀ front back : List UInt8, front.length = start →
        Edit.applyAll (front ++ Utf8.encode raw ++ back) [e] = .ok (front ++ Utf8.encode raw' ++ back)) ∧
      Literal.ofSource? raw' start = some l' ∧ l'.style = l.style ∧
      (l'.value = movedText policy l.value ↔
        ¬ (l.style = .double ∧ l.endsLone ∧ startsEscape policy.vendorPrefix = true)) := by
  obtain ⟨m, style, content, hm, hraw, rfl⟩ := ofSource?_content hread
  obtain ⟨u, w, rfl, hleading, hhead⟩ := exists_leading style content
  have hvalue := value_ofContent start m style (u ++ w)
  rw [hleading.values] at hvalue
  rw [editLiteral] at he
  split at he
  swap
  · cases he
  rename_i hmoved
  obtain rfl := List.mem_singleton.1 he
  -- the first character behind the separators is a word character, and spelled as it is
  obtain ⟨c, rest, hdrop, hword⟩ := moved_head hmoved
  rw [hvalue, String.toList_ofList, (span_leading hhead).2] at hdrop
  obtain ⟨cs, rfl⟩ := content_of_word (c := c) (by rw [hdrop]; rfl) hword
  have hc : c ≠ '\\' ∧ c ≠ '\'' := by constructor <;> (rintro rfl; exact absurd hword (by decide))
  have hoffset := insertionOffset_ofContent start (m := m) hleading (c := c) (by rw [hdrop]; rfl) hc.1
  set l := ofContent start m style (u ++ c :: cs)
  set inserted := spelled l.separatorText (splitSegments policy.vendorPrefix)
  refine ⟨String.ofList (m ++ style.quote :: (u ++ (inserted ++ c :: cs) ++ [style.quote])),
    ofContent start m style (u ++ (inserted ++ c :: cs)), fun front back hfront => ?_,
    ofSource?_ofContent _ hm (by simp), rfl, ?_⟩
  · have hmade := applyAll_content style (u := u) (w := c :: cs) hm
      (encodeNamespace_ne l policy.vendorPrefix) front back
    rwa [hfront, ← hoffset, ← hraw, String.ofList_toList, encodeNamespace_toList] at hmade
  · rw [endsLone_ofContent hleading (c := c) (by rw [hdrop]; rfl) hc.1,
      ← values_edited_iff hp (separatorText_cases l) hleading hc, value_ofContent, hvalue, movedText,
      String.toList_ofList, (span_leading hhead).1, (span_leading hhead).2]
    exact String.ofList_inj

/-- the same value in both kinds of quotes, its leading separator spelled by a single backslash -/
def singleQuoted : Literal := ofContent 0 [] .single "\\Lib\\A".toList

def doubleQuoted : Literal := ofContent 0 [] .double "\\Lib\\A".toList

def lowerPolicy : Policy := ⟨⟨["Lib"]⟩, "vendor\\isolated"⟩

/-- in single quotes the value gets the prefix; in double quotes its first letter becomes part of an escape -/
theorem value_edited_iff_sample :
    (∃ raw l, Edit.applyAll (Utf8.encode "'\\Lib\\A'") (editLiteral lowerPolicy singleQuoted) = .ok (Utf8.encode raw) ∧
      Literal.ofSource? raw 0 = some l ∧ l.value = "\\vendor\\isolated\\Lib\\A") ∧
    ∃ raw l, Edit.applyAll (Utf8.encode "\"\\Lib\\A\"") (editLiteral lowerPolicy doubleQuoted) = .ok (Utf8.encode raw) ∧
      Literal.ofSource? raw 0 = some l ∧ l.value ≠ "\\vendor\\isolated\\Lib\\A" := by
  have hp : lowerPolicy.Labelled := by decide
  constructor
  · have hedits : editLiteral lowerPolicy singleQuoted = [Edit.insertion 2 "vendor\\isolated\\"] := by decide +kernel
    obtain ⟨raw, l, hmade, hread, -, hvalue⟩ := value_edited_iff (l := singleQuoted) hp
      (ofSource?_ofContent "'\\Lib\\A'" (.inl rfl) rfl) (by rw [hedits]; exact List.mem_singleton_self _)
    have hmoved : movedText lowerPolicy singleQuoted.value = "\\vendor\\isolated\\Lib\\A" := by decide +kernel
    rw [hmoved] at hvalue
    exact ⟨raw, l, by simpa [hedits] using hmade [] [] rfl, hread, hvalue.2 (by decide +kernel)⟩
  · have hedits : editLiteral lowerPolicy doubleQuoted = [Edit.insertion 2 "vendor\\\\isolated\\\\"] := by
      decide +kernel
    obtain ⟨raw, l, hmade, hread, -, hvalue⟩ := value_edited_iff (l := doubleQuoted) hp
      (ofSource?_ofContent "\"\\Lib\\A\"" (.inl rfl) rfl) (by rw [hedits]; exact List.mem_singleton_self _)
    have hmoved : movedText lowerPolicy doubleQuoted.value = "\\vendor\\isolated\\Lib\\A" := by decide +kernel
    rw [hmoved] at hvalue
    exact ⟨raw, l, by simpa [hedits] using hmade [] [] rfl, hread, fun heq => hvalue.1 heq (by decide +kernel)⟩

end Prefixing

end Isolation
