/-
Which texts are read as names, and what reading keeps of them.

- `Spelled`: the grammar of names. A row of labels with single separators between, behind an optional separator or an
  optional `namespace\` in any case. A row of labels can start with the label `namespace` itself, so the grammar is
  ambiguous there, and `namespace\` is read as the keyword wherever it can be (`ReadAs`).
- `labelRow_iff_splitOn`: the rows of labels are the texts that are cut into labels.
- `parse?_eq_some_iff`: the reader follows the grammar and resolves this one ambiguity.
- `exists_parse?_iff`: so it reads exactly the texts that can be spelled.
- `same_iff`: two names have the same flags and segments exactly if their texts are the same but for the case of the
  keyword.
-/
import Isolation.Name.WrittenName
import Isolation.Proofs.Name.Lookalikes

namespace Isolation.WrittenName

variable {c small : Char} {cs text rest word word' : List Char} {segments : List String} {rooted relative : Bool}

/-! ## The grammar -/

/-- an ASCII letter, an underscore, or a character outside ASCII -/
def OpensLabel (c : Char) : Prop := ('A' ≤ c ∧ c ≤ 'Z') ∨ ('a' ≤ c ∧ c ≤ 'z') ∨ c = '_' ∨ '\x80' ≤ c

/-- one of these or a digit -/
def ContinuesLabel (c : Char) : Prop := OpensLabel c ∨ ('0' ≤ c ∧ c ≤ '9')

inductive LabelText : List Char → Prop where
  | mk {c : Char} {cs : List Char} (hc : OpensLabel c) (hcs : ∀ d ∈ cs, ContinuesLabel d) : LabelText (c :: cs)

/-- one or more labels with single separators between -/
inductive LabelRow : List Char → List String → Prop where
  | last {label : List Char} (h : LabelText label) : LabelRow label [String.ofList label]
  | more {label text : List Char} {rest : List String} (h : LabelText label) (hrest : LabelRow text rest) :
      LabelRow (label ++ '\\' :: text) (String.ofList label :: rest)

/-- the word `namespace`, each letter small or capital -/
def Keyword (word : List Char) : Prop :=
  List.Forall₂ (fun c small => c = small ∨ c = Char.toUpper small) word "namespace".toList

/-- the spelling of a name, with its flags and segments -/
inductive Spelled : List Char → (rooted relative : Bool) → List String → Prop where
  | plain {text : List Char} {segments : List String} (h : LabelRow text segments) :
      Spelled text false false segments
  | rooted {text : List Char} {segments : List String} (h : LabelRow text segments) :
      Spelled ('\\' :: text) true false segments
  | relative {word text : List Char} {segments : List String} (hword : Keyword word) (h : LabelRow text segments) :
      Spelled (word ++ '\\' :: text) false true segments

/-- the text starts with the keyword of a relative name -/
def StartsRelative (cs : List Char) : Prop := ∃ word rest, Keyword word ∧ cs = word ++ '\\' :: rest

/-- how a text is read: as it is spelled, and as a relative name if it starts like one -/
structure ReadAs (cs : List Char) (rooted relative : Bool) (segments : List String) : Prop where
  spelled : Spelled cs rooted relative segments
  relative_of_starts : StartsRelative cs → relative = true

/-! ## Labels -/

theorem isLabelStart_iff : isLabelStart c = true ↔ OpensLabel c := by
  have hcapital : ('A' ≤ c ∧ c ≤ 'Z') ↔ 65 ≤ c.toNat ∧ c.toNat ≤ 90 := Iff.rfl
  have hsmall : ('a' ≤ c ∧ c ≤ 'z') ↔ 97 ≤ c.toNat ∧ c.toNat ≤ 122 := Iff.rfl
  have hunderscore : c = '_' ↔ c.toNat = 95 := Char.toNat_inj.symm
  have hhigh : '\x80' ≤ c ↔ 128 ≤ c.toNat := Iff.rfl
  simp only [isLabelStart, OpensLabel, Bool.or_eq_true, Ascii.isLetter_iff, decide_eq_true_eq, Bool.not_eq_true',
    Ascii.isAscii, decide_eq_false_iff_not, hcapital, hsmall, hunderscore, hhigh]
  omega

theorem isLabelRest_iff : isLabelRest c = true ↔ ContinuesLabel c := by
  have hdigit : ('0' ≤ c ∧ c ≤ '9') ↔ 48 ≤ c.toNat ∧ c.toNat ≤ 57 := Iff.rfl
  rw [ContinuesLabel, ← isLabelStart_iff, hdigit, ← Ascii.isDigit_iff]
  simp only [isLabelStart, isLabelRest, Ascii.isWord, Bool.or_eq_true]
  constructor
  · rintro (((h | h) | h) | h)
    · exact .inl (.inl (.inl h))
    · exact .inr h
    · exact .inl (.inl (.inr h))
    · exact .inl (.inr h)
  · rintro (((h | h) | h) | h)
    · exact .inl (.inl (.inl h))
    · exact .inl (.inr h)
    · exact .inr h
    · exact .inl (.inl (.inr h))

theorem isLabelChars_iff : isLabelChars cs = true ↔ LabelText cs := by
  constructor
  · intro h
    cases cs with
    | nil => cases h
    | cons c cs =>
      rw [isLabelChars, Bool.and_eq_true, List.all_eq_true] at h
      exact .mk (isLabelStart_iff.1 h.1) fun d hd => isLabelRest_iff.1 (h.2 d hd)
  · rintro ⟨hc, hcs⟩
    rw [isLabelChars, Bool.and_eq_true, List.all_eq_true]
    exact ⟨isLabelStart_iff.2 hc, fun d hd => isLabelRest_iff.2 (hcs d hd)⟩

theorem isLabel_ofList_iff : isLabel (String.ofList cs) = true ↔ LabelText cs := by
  rw [isLabel, String.toList_ofList, isLabelChars_iff]

theorem LabelText.separator_notMem (h : LabelText cs) : '\\' ∉ cs := by
  have hnot := separator_not_mem_label (isLabel_ofList_iff.2 h)
  rwa [String.toList_ofList] at hnot

/-! ## Rows of labels -/

/-- a row of labels is what its segments, joined, spell -/
theorem labelRow_iff : LabelRow text segments ↔
    segments ≠ [] ∧ segments.all isLabel = true ∧ text = (joinSegments segments).toList := by
  constructor
  · intro h
    induction h with
    | @last label h => simp [joinSegments_singleton, isLabel_ofList_iff.2 h]
    | @more label text rest h hrest ih =>
      obtain ⟨hne, hlabels, rfl⟩ := ih
      obtain ⟨t, more, rfl⟩ := List.exists_cons_of_ne_nil hne
      refine ⟨List.cons_ne_nil _ _, ?_, ?_⟩
      · rw [List.all_cons, isLabel_ofList_iff.2 h, hlabels, Bool.true_and]
      · simp [joinSegments_cons_cons]
  · rintro ⟨hne, hlabels, rfl⟩
    induction segments with
    | nil => exact absurd rfl hne
    | cons s rest ih =>
      rw [List.all_cons, Bool.and_eq_true] at hlabels
      have hs : LabelText s.toList := isLabelChars_iff.1 hlabels.1
      cases rest with
      | nil =>
        rw [joinSegments_singleton]
        simpa using LabelRow.last hs
      | cons t more =>
        have hrest := LabelRow.more hs (ih (List.cons_ne_nil _ _) hlabels.2)
        simpa [joinSegments_cons_cons] using hrest

/-- a text is a row of labels if it is cut into labels, and these are its segments -/
theorem labelRow_iff_splitOn : LabelRow text segments ↔
    (text.splitOn separator).map String.ofList = segments ∧ segments.all isLabel = true := by
  have hsplit : (text.splitOn separator).map String.ofList = splitSegments (String.ofList text) := by
    rw [splitSegments, Text.splitAt, String.toList_ofList]
  rw [labelRow_iff, hsplit]
  constructor
  · rintro ⟨hne, hlabels, rfl⟩
    rw [String.ofList_toList, splitSegments_joinLabels hne hlabels]
    exact ⟨rfl, hlabels⟩
  · rintro ⟨rfl, hlabels⟩
    refine ⟨splitSegments_ne_nil _, hlabels, ?_⟩
    rw [joinSegments_split, String.toList_ofList]

/-- a row of labels that starts with a word and a separator starts with this word as a label -/
theorem LabelRow.behind (h : LabelRow (word ++ '\\' :: rest) segments) (hword : '\\' ∉ word) :
    ∃ others, LabelRow rest others := by
  generalize hcs : word ++ '\\' :: rest = cs at h
  cases h with
  | last hlabel =>
    subst hcs
    exact absurd (List.mem_append_right word List.mem_cons_self) hlabel.separator_notMem
  | @more label text others hlabel hothers =>
    have hfront : word ++ '\\' :: rest <+: label ++ '\\' :: text := by rw [hcs]
    obtain ⟨rfl, -⟩ := (prefix_with_separator_iff hword hlabel.separator_notMem).1 hfront
    obtain rfl : rest = text := by simpa using hcs
    exact ⟨others, hothers⟩

/-- a row of labels does not start with a separator -/
theorem not_labelRow_separator : ¬ LabelRow ('\\' :: rest) segments := by
  intro h
  obtain ⟨hne, hlabels, htext⟩ := labelRow_iff.1 h
  obtain ⟨c, hc, hother⟩ := (anchored_joinLabels hne hlabels).first
  rw [← htext, List.head?_cons] at hc
  exact hother (Option.some.inj hc).symm

/-! ## The keyword -/

theorem toNat_toUpper (hsmall : 97 ≤ small.toNat ∧ small.toNat ≤ 122) :
    small.toUpper.toNat = small.toNat - 32 := by
  have hstep : ('A'.val - 'a'.val).toNat = 2 ^ 32 - 32 := by decide
  unfold Char.toUpper
  split
  · rw [Char.toNat, UInt32.toNat_add, hstep, Char.toNat_val]
    omega
  · rename_i hother
    exact absurd hsmall hother

theorem toLower_eq_iff (hsmall : 97 ≤ small.toNat ∧ small.toNat ≤ 122) :
    c.toLower = small ↔ c = small ∨ c = small.toUpper := by
  rw [← Char.toNat_inj, ← Char.toNat_inj, ← Char.toNat_inj, Ascii.toNat_toLower, toNat_toUpper hsmall]
  split <;> omega

/-- small letters are spelled in either case by what becomes them when it is made small -/
theorem forall₂_either_iff {letters : List Char} (h : ∀ small ∈ letters, 97 ≤ small.toNat ∧ small.toNat ≤ 122) :
    List.Forall₂ (fun c small => c = small ∨ c = Char.toUpper small) word letters ↔
      word.map Char.toLower = letters := by
  induction letters generalizing word with
  | nil => simp
  | cons small letters ih =>
    obtain ⟨hsmall, hletters⟩ := List.forall_mem_cons.1 h
    cases word with
    | nil => simp
    | cons c word => rw [List.forall₂_cons, ih hletters, ← toLower_eq_iff hsmall, List.map_cons, List.cons.injEq]

theorem keyword_small : ∀ small ∈ "namespace".toList, 97 ≤ small.toNat ∧ small.toNat ≤ 122 := by
  have hall : ("namespace".toList.all fun small => 97 ≤ small.toNat && small.toNat ≤ 122) = true := by decide
  simpa only [List.all_eq_true, Bool.and_eq_true, decide_eq_true_eq] using hall

theorem keyword_iff : Keyword word ↔ word.map Char.toLower = "namespace".toList := forall₂_either_iff keyword_small

theorem Keyword.length (h : Keyword word) : word.length = 9 := h.length_eq

theorem Keyword.separator_notMem (h : Keyword word) : '\\' ∉ word := by
  intro hmem
  have hlower := List.mem_map_of_mem (f := Char.toLower) hmem
  rw [keyword_iff.1 h] at hlower
  exact absurd hlower (by decide)

/-- the letters of the keyword have one byte each -/
theorem Keyword.isAscii (h : Keyword word) : ∀ c ∈ word, Ascii.isAscii c = true := by
  intro c hc
  have hlower := List.mem_map_of_mem (f := Char.toLower) hc
  rw [keyword_iff.1 h] at hlower
  have hsmall := keyword_small _ hlower
  rw [Ascii.toNat_toLower] at hsmall
  refine decide_eq_true ?_
  split at hsmall <;> omega

/-- the marker is the keyword and a separator -/
theorem afterMarker?_eq_some_iff :
    afterMarker? cs = some rest ↔ ∃ word, Keyword word ∧ cs = word ++ '\\' :: rest := by
  have hmarker : relativeMarker = "namespace".toList ++ ['\\'] := by decide
  unfold afterMarker?
  constructor
  · intro h
    split at h
    · rename_i hfront
      cases h
      rw [hmarker, List.map_eq_append_iff] at hfront
      obtain ⟨word, behind, htake, hword, hbehind⟩ := hfront
      obtain ⟨d, rfl, hd⟩ := List.map_eq_singleton_iff.1 hbehind
      obtain rfl : d = '\\' := Ascii.toLower_eq_separator hd
      refine ⟨word, keyword_iff.2 hword, ?_⟩
      have hcut := List.take_append_drop relativeMarker.length cs
      rw [hmarker, htake, List.append_assoc] at hcut
      exact hcut.symm
    · cases h
  · rintro ⟨word, hword, rfl⟩
    have hlength : relativeMarker.length = (word ++ ['\\']).length := by
      rw [List.length_append, hword.length]
      rfl
    have hcut : word ++ '\\' :: rest = (word ++ ['\\']) ++ rest := by rw [List.append_assoc]; rfl
    rw [hcut, hlength, List.take_left, List.drop_left, List.map_append, keyword_iff.1 hword, if_pos]
    exact hmarker.symm

/-! ## Reading -/

/-- the keyword does not start with a separator -/
theorem Keyword.ne_separator (h : Keyword word) : word ++ '\\' :: rest ≠ '\\' :: cs := by
  intro heq
  cases word with
  | nil => cases h
  | cons c word =>
    cases heq
    exact h.separator_notMem List.mem_cons_self

/-- the keyword has a fixed length, so it ends at one place -/
theorem Keyword.append_inj {rest' : List Char} (h : Keyword word) (h' : Keyword word')
    (heq : word ++ '\\' :: rest = word' ++ '\\' :: rest') : rest = rest' := by
  obtain ⟨-, hbehind⟩ := List.append_inj heq (h.length.trans h'.length.symm)
  exact (List.cons.inj hbehind).2

theorem readAs_rooted_iff :
    ReadAs ('\\' :: rest) rooted relative segments ↔ rooted = true ∧ relative = false ∧ LabelRow rest segments := by
  constructor
  · rintro ⟨hspelled, -⟩
    generalize hcs : '\\' :: rest = cs at hspelled
    cases hspelled with
    | plain h =>
      subst hcs
      exact absurd h not_labelRow_separator
    | rooted h =>
      cases hcs
      exact ⟨rfl, rfl, h⟩
    | relative hword _ => exact absurd hcs.symm hword.ne_separator
  · rintro ⟨rfl, rfl, h⟩
    refine ⟨.rooted h, ?_⟩
    rintro ⟨word, behind, hword, heq⟩
    exact absurd heq.symm hword.ne_separator

theorem readAs_relative_iff (hword : Keyword word) : ReadAs (word ++ '\\' :: rest) rooted relative segments ↔
    rooted = false ∧ relative = true ∧ LabelRow rest segments := by
  constructor
  · rintro ⟨hspelled, hstarts⟩
    have hrelative := hstarts ⟨word, rest, hword, rfl⟩
    generalize hcs : word ++ '\\' :: rest = cs at hspelled
    cases hspelled with
    | plain _ => cases hrelative
    | rooted _ => cases hrelative
    | relative hword' h =>
      obtain rfl := hword.append_inj hword' hcs
      exact ⟨rfl, rfl, h⟩
  · rintro ⟨rfl, rfl, h⟩
    exact ⟨.relative hword h, fun _ => rfl⟩

theorem readAs_plain_iff (hroot : ∀ rest, cs ≠ '\\' :: rest) (hstart : ¬ StartsRelative cs) :
    ReadAs cs rooted relative segments ↔ rooted = false ∧ relative = false ∧ LabelRow cs segments := by
  constructor
  · rintro ⟨hspelled, -⟩
    cases hspelled with
    | plain h => exact ⟨rfl, rfl, h⟩
    | rooted _ => exact absurd rfl (hroot _)
    | relative hword _ => exact absurd ⟨_, _, hword, rfl⟩ hstart
  · rintro ⟨rfl, rfl, h⟩
    exact ⟨.plain h, fun hstarts => absurd hstarts hstart⟩

/-- the name of a text with these flags, if what is left behind its front is cut into labels -/
def ofParts? (source : String) (span : Span) (rooted relative : Bool) (rest : List Char) : Option WrittenName :=
  let segments := (rest.splitOn separator).map String.ofList
  if segments.all isLabel then some ⟨span, source, rooted, relative, segments⟩ else none

section Parsing

variable {source source' : String} {span span' : Span} {n n' : WrittenName}

theorem ofParts?_eq_some_iff : ofParts? source span rooted relative rest = some n ↔
    n.span = span ∧ n.text = source ∧ n.rooted = rooted ∧ n.relative = relative ∧ LabelRow rest n.segments := by
  rw [labelRow_iff_splitOn]
  unfold ofParts?
  generalize (rest.splitOn separator).map String.ofList = parts
  constructor
  · intro h
    dsimp only at h
    split at h
    · rename_i hlabels
      cases h
      exact ⟨rfl, rfl, rfl, rfl, rfl, hlabels⟩
    · cases h
  · rintro ⟨rfl, rfl, rfl, rfl, rfl, hlabels⟩
    exact if_pos hlabels

/-! The reader looks at the front of a text, in three ways. -/

theorem parse?_of_rooted (htext : source.toList = '\\' :: rest) :
    parse? source span = ofParts? source span true false rest := by
  unfold parse?
  rw [htext]
  rfl

theorem parse?_of_relative (hword : Keyword word) (htext : source.toList = word ++ '\\' :: rest) :
    parse? source span = ofParts? source span false true rest := by
  unfold parse?
  dsimp only
  split
  · rename_i hroot
    exact absurd (htext.symm.trans hroot) hword.ne_separator
  · rw [afterMarker?_eq_some_iff.2 ⟨word, hword, htext⟩]
    rfl

theorem parse?_of_plain (hroot : ∀ rest, source.toList ≠ '\\' :: rest) (hstart : ¬ StartsRelative source.toList) :
    parse? source span = ofParts? source span false false source.toList := by
  have hafter : afterMarker? source.toList = none := by
    rw [Option.eq_none_iff_forall_ne_some]
    intro rest hrest
    obtain ⟨word, hword, htext⟩ := afterMarker?_eq_some_iff.1 hrest
    exact hstart ⟨word, rest, hword, htext⟩
  unfold parse?
  dsimp only
  split
  · rename_i hroot'
    exact absurd hroot' (hroot _)
  · rw [hafter]
    rfl

/-- a text starts with a separator, or with the keyword, or with neither -/
theorem front_cases (cs : List Char) : (∃ rest, cs = '\\' :: rest) ∨ StartsRelative cs ∨
    ((∀ rest, cs ≠ '\\' :: rest) ∧ ¬ StartsRelative cs) := by
  by_cases hroot : ∃ rest, cs = '\\' :: rest
  · exact .inl hroot
  · by_cases hstart : StartsRelative cs
    · exact .inr (.inl hstart)
    · exact .inr (.inr ⟨not_exists.1 hroot, hstart⟩)

/-- **The reader follows the grammar**, and takes `namespace\` for the keyword wherever it can. -/
theorem parse?_eq_some_iff : parse? source span = some n ↔
    n.span = span ∧ n.text = source ∧ ReadAs source.toList n.rooted n.relative n.segments := by
  rcases front_cases source.toList with ⟨rest, htext⟩ | ⟨word, rest, hword, htext⟩ | ⟨hroot, hstart⟩
  · rw [parse?_of_rooted htext, ofParts?_eq_some_iff, htext, readAs_rooted_iff]
  · rw [parse?_of_relative hword htext, ofParts?_eq_some_iff, htext, readAs_relative_iff hword]
  · rw [parse?_of_plain hroot hstart, ofParts?_eq_some_iff, readAs_plain_iff hroot hstart]

/-- a text that can be spelled as a name is read as one, if not always with the same segments -/
theorem Spelled.exists_readAs (h : Spelled cs rooted relative segments) :
    ∃ rooted relative segments, ReadAs cs rooted relative segments := by
  cases h with
  | plain h =>
    by_cases hstart : StartsRelative cs
    · obtain ⟨word, rest, hword, rfl⟩ := hstart
      obtain ⟨others, hothers⟩ := h.behind hword.separator_notMem
      exact ⟨_, _, _, (readAs_relative_iff hword).2 ⟨rfl, rfl, hothers⟩⟩
    · exact ⟨_, _, _, .plain h, fun hstarts => absurd hstarts hstart⟩
  | rooted h => exact ⟨_, _, _, readAs_rooted_iff.2 ⟨rfl, rfl, h⟩⟩
  | relative hword h => exact ⟨_, _, _, (readAs_relative_iff hword).2 ⟨rfl, rfl, h⟩⟩

theorem exists_parse?_iff : (∃ n, parse? source span = some n) ↔
    ∃ rooted relative segments, Spelled source.toList rooted relative segments := by
  constructor
  · rintro ⟨n, h⟩
    exact ⟨_, _, _, (parse?_eq_some_iff.1 h).2.2.spelled⟩
  · rintro ⟨_, _, _, h⟩
    obtain ⟨rooted, relative, segments, hread⟩ := h.exists_readAs
    exact ⟨⟨span, source, rooted, relative, segments⟩, parse?_eq_some_iff.2 ⟨rfl, rfl, hread⟩⟩

/-! ## What reading keeps -/

/-- equal texts, or texts that differ at most in the case of the keyword at their front -/
inductive SameButKeyword : List Char → List Char → Prop where
  | same (cs : List Char) : SameButKeyword cs cs
  | keyword {word word' : List Char} (h : Keyword word) (h' : Keyword word') (rest : List Char) :
      SameButKeyword (word ++ '\\' :: rest) (word' ++ '\\' :: rest)

theorem LabelRow.text_eq {text' : List Char} (h : LabelRow text segments) (h' : LabelRow text' segments) :
    text = text' :=
  (labelRow_iff.1 h).2.2.trans (labelRow_iff.1 h').2.2.symm

theorem LabelRow.segments_eq {segments' : List String} (h : LabelRow text segments) (h' : LabelRow text segments') :
    segments = segments' :=
  (labelRow_iff_splitOn.1 h).1.symm.trans (labelRow_iff_splitOn.1 h').1

theorem LabelRow.labelled (h : LabelRow text segments) : segments ≠ [] ∧ segments.all isLabel = true := by
  obtain ⟨hne, hlabels, -⟩ := labelRow_iff.1 h
  exact ⟨hne, hlabels⟩

theorem Spelled.labelled (h : Spelled cs rooted relative segments) :
    segments ≠ [] ∧ segments.all isLabel = true := by
  cases h with
  | plain h => exact h.labelled
  | rooted h => exact h.labelled
  | relative _ h => exact h.labelled

/-- a name does not end with a separator -/
theorem Spelled.last (h : Spelled cs rooted relative segments) : ∃ c, cs.getLast? = some c ∧ c ≠ '\\' := by
  have hrow : ∀ {text}, LabelRow text segments → ∃ c, text.getLast? = some c ∧ c ≠ '\\' := by
    intro text hrow
    obtain ⟨hne, hlabels, rfl⟩ := labelRow_iff.1 hrow
    exact (anchored_joinLabels hne hlabels).last
  cases h with
  | plain h => exact hrow h
  | rooted h =>
    obtain ⟨c, hc, hne⟩ := hrow h
    exact ⟨c, by rw [List.getLast?_cons, hc]; rfl, hne⟩
  | relative _ h =>
    obtain ⟨c, hc, hne⟩ := hrow h
    exact ⟨c, by rw [List.getLast?_append, List.getLast?_cons, hc]; rfl, hne⟩

theorem Spelled.not_both (h : Spelled cs rooted relative segments) : ¬ (rooted = true ∧ relative = true) := by
  rintro ⟨rfl, rfl⟩
  cases h

/-- flags and segments tell the text, but for the case of the keyword -/
theorem Spelled.same {cs' : List Char} (h : Spelled cs rooted relative segments)
    (h' : Spelled cs' rooted relative segments) : SameButKeyword cs cs' := by
  cases h with
  | plain h =>
    cases h' with
    | plain h' =>
      obtain rfl := h.text_eq h'
      exact .same _
  | rooted h =>
    cases h' with
    | rooted h' =>
      obtain rfl := h.text_eq h'
      exact .same _
  | relative hword h =>
    cases h' with
    | relative hword' h' =>
      obtain rfl := h.text_eq h'
      exact .keyword hword hword' _

/-- **Only the case of the keyword is lost**: two names have the same flags and segments exactly if their texts are the
same but for it. -/
theorem same_iff (h : parse? source span = some n) (h' : parse? source' span' = some n') :
    (n.rooted = n'.rooted ∧ n.relative = n'.relative ∧ n.segments = n'.segments) ↔
      SameButKeyword source.toList source'.toList := by
  obtain ⟨-, -, hread⟩ := parse?_eq_some_iff.1 h
  obtain ⟨-, -, hread'⟩ := parse?_eq_some_iff.1 h'
  constructor
  · rintro ⟨hrooted, hrelative, hsegments⟩
    rw [hrooted, hrelative, hsegments] at hread
    exact hread.spelled.same hread'.spelled
  · intro hsame
    generalize htext : source.toList = cs at hsame hread
    generalize htext' : source'.toList = cs' at hsame hread'
    cases hsame with
    | same =>
      -- one text at two spans: the reader only copies the span
      obtain rfl : source = source' := String.toList_inj.1 (htext.trans htext'.symm)
      rw [← htext] at hread
      have hagain : parse? source span' = some { n with span := span' } :=
        parse?_eq_some_iff.2 ⟨rfl, (parse?_eq_some_iff.1 h).2.1, hread⟩
      obtain rfl := Option.some.inj (hagain.symm.trans h')
      exact ⟨rfl, rfl, rfl⟩
    | keyword hword hword' rest =>
      obtain ⟨hrooted, hrelative, hrow⟩ := (readAs_relative_iff hword).1 hread
      obtain ⟨hrooted', hrelative', hrow'⟩ := (readAs_relative_iff hword').1 hread'
      exact ⟨hrooted.trans hrooted'.symm, hrelative.trans hrelative'.symm, hrow.segments_eq hrow'⟩

end Parsing

end Isolation.WrittenName
