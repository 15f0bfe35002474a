/-
The reader of names as it cuts its text at byte offsets.

- `sliceFrom?`, `sliceTo?`: the parts of a text at a byte offset, which fail off the boundaries of characters
  (`isValid_iff`).
- `probe_iff`: the probe of the first bytes finds the relative marker exactly where the keyword stands, whatever the text
  is.
- `parseSliced?_eq`: the reader by offsets is never stopped off a boundary, and reads what `parse?` reads.
- `parse?_reads_names`: with this, the grammar of names, and what is kept of a text, about any text.
-/
import Isolation.Proofs.Name.Spelling
import Isolation.Proofs.Source.Decoding

namespace Isolation.WrittenName

variable {cs rest word : List Char}

/-! ## Reading by byte offsets -/

/-- the text from a byte offset on; `none` if the offset is not at the boundary of a character -/
def sliceFrom? (source : String) (offset : Nat) : Option String :=
  if String.Pos.Raw.IsValid source ⟨offset⟩ then Utf8.decode? ((Utf8.encode source).drop offset) else none

/-- the text up to a byte offset; `none` if the offset is not at the boundary of a character -/
def sliceTo? (source : String) (offset : Nat) : Option String :=
  if String.Pos.Raw.IsValid source ⟨offset⟩ then Utf8.decode? ((Utf8.encode source).take offset) else none

/-- how many bytes the relative marker has -/
def markerLength : Nat := (Utf8.encode (String.ofList relativeMarker)).length

/-- the reader as it cuts its text at byte offsets: the probe for the relative marker may fail, but a cut off the boundary
of a character is the end, `none` -/
def parseSliced? (source : String) (span : Span) : Option (Option WrittenName) :=
  let rooted := source.toList.head? == some separator
  let behindRoot? := if rooted then sliceFrom? source 1 else some source
  behindRoot?.bind fun rest =>
    let relative := !rooted &&
      (sliceTo? rest markerLength).any (Ascii.sameIgnoringCase · (String.ofList relativeMarker))
    let behindMarker? := if relative then sliceFrom? rest markerLength else some rest
    behindMarker?.map fun rest => ofParts? source span rooted relative rest.toList

/-- the boundaries of characters are where a text can be cut in two -/
theorem isValid_iff {source : String} {offset : Nat} : String.Pos.Raw.IsValid source ⟨offset⟩ ↔
    ∃ front rest, source = front ++ rest ∧ offset = (Utf8.encode front).length := by
  have hsize : ∀ front : String, (Utf8.encode front).length = front.utf8ByteSize := fun front => by simp [Utf8.encode]
  rw [String.Pos.Raw.isValid_iff_exists_append]
  simp only [hsize, String.Pos.Raw.ext_iff, String.byteIdx_rawEndPos]

theorem sliceFrom?_append (front rest : String) :
    sliceFrom? (front ++ rest) (Utf8.encode front).length = some rest := by
  rw [sliceFrom?, if_pos (isValid_iff.2 ⟨front, rest, rfl, rfl⟩), Utf8.encode_append, List.drop_left,
    Utf8.decode?_encode]

theorem sliceTo?_append (front rest : String) :
    sliceTo? (front ++ rest) (Utf8.encode front).length = some front := by
  rw [sliceTo?, if_pos (isValid_iff.2 ⟨front, rest, rfl, rfl⟩), Utf8.encode_append, List.take_left,
    Utf8.decode?_encode]

/-- what stands up to a byte offset is the front of the text -/
theorem sliceTo?_eq_some {source front : String} {offset : Nat} (h : sliceTo? source offset = some front) :
    ∃ rest, source = front ++ rest := by
  have hvalid : String.Pos.Raw.IsValid source ⟨offset⟩ := by
    by_contra hoff
    rw [sliceTo?, if_neg hoff] at h
    cases h
  obtain ⟨front', rest, rfl, rfl⟩ := isValid_iff.1 hvalid
  rw [sliceTo?_append] at h
  cases h
  exact ⟨rest, rfl⟩

/-- the keyword and its separator have as many bytes as the marker, in any case -/
theorem Keyword.length_encode (h : Keyword word) :
    (Utf8.encode (String.ofList (word ++ ['\\']))).length = markerLength := by
  have hascii : ∀ c ∈ word ++ ['\\'], Ascii.isAscii c = true := by
    intro c hc
    rcases List.mem_append.1 hc with hc | hc
    · exact h.isAscii c hc
    · rw [List.mem_singleton.1 hc]
      rfl
  rw [Utf8.length_encode, String.toList_ofList, Literal.byteLength_ascii hascii, List.length_append, h.length]
  decide

theorem eq_marker_append {source : String} (htext : source.toList = word ++ '\\' :: rest) :
    source = String.ofList (word ++ ['\\']) ++ String.ofList rest := by
  apply String.toList_inj.1
  simp [htext]

/-- the probe of the first bytes finds the marker exactly if the text starts with the keyword and a separator -/
theorem probe_iff {source : String} :
    (sliceTo? source markerLength).any (Ascii.sameIgnoringCase · (String.ofList relativeMarker)) = true ↔
      StartsRelative source.toList := by
  have hmarker : relativeMarker.map Char.toLower = relativeMarker := by decide
  constructor
  · intro h
    cases hslice : sliceTo? source markerLength with
    | none =>
      rw [hslice] at h
      cases h
    | some front =>
      rw [hslice, Option.any_some, Ascii.sameIgnoringCase_iff, Ascii.lower_toList, Ascii.lower_toList,
        String.toList_ofList, hmarker] at h
      obtain ⟨rest, rfl⟩ := sliceTo?_eq_some hslice
      have hafter : afterMarker? (front.toList ++ rest.toList) = some rest.toList := by
        have hlength : relativeMarker.length = front.toList.length := by rw [h, List.length_map]
        rw [afterMarker?, hlength, List.take_left, List.drop_left, if_pos h.symm]
      obtain ⟨word, hword, heq⟩ := afterMarker?_eq_some_iff.1 hafter
      exact ⟨word, rest.toList, hword, by rw [String.toList_append, heq]⟩
  · rintro ⟨word, rest, hword, htext⟩
    rw [← hword.length_encode, eq_marker_append htext, sliceTo?_append, Option.any_some, Ascii.sameIgnoringCase_iff,
      Ascii.lower_toList, Ascii.lower_toList, String.toList_ofList, String.toList_ofList, List.map_append,
      keyword_iff.1 hword]
    decide

theorem head?_ne_separator (hroot : ∀ rest, cs ≠ '\\' :: rest) : (cs.head? == some separator) = false := by
  rw [beq_eq_false_iff_ne]
  intro hhead
  obtain ⟨rest, hrest⟩ := List.head?_eq_some_iff.1 hhead
  exact hroot rest hrest

/-- **No cut is off the boundary of a character**, and the reader by offsets reads what the reader of characters does. -/
theorem parseSliced?_eq (source : String) (span : Span) : parseSliced? source span = some (parse? source span) := by
  rcases front_cases source.toList with ⟨rest, htext⟩ | ⟨word, rest, hword, htext⟩ | ⟨hroot, hstart⟩
  · have hrooted : (source.toList.head? == some separator) = true := by rw [htext]; rfl
    have hcut : sliceFrom? source 1 = some (String.ofList rest) := by
      obtain rfl : source = "\\" ++ String.ofList rest := String.toList_inj.1 (by simp [htext])
      exact sliceFrom?_append "\\" (String.ofList rest)
    simp only [parseSliced?, hrooted, hcut, if_true, Option.bind_some, Bool.not_true, Bool.false_and,
      Bool.false_eq_true, if_false, Option.map_some, String.toList_ofList, parse?_of_rooted htext]
  · have hrooted := head?_ne_separator fun _ hroot => hword.ne_separator (htext.symm.trans hroot)
    have hprobe := probe_iff.2 ⟨word, rest, hword, htext⟩
    have hcut : sliceFrom? source markerLength = some (String.ofList rest) := by
      rw [← hword.length_encode, eq_marker_append htext, sliceFrom?_append]
    simp only [parseSliced?, hrooted, hprobe, hcut, if_true, Option.bind_some, Bool.not_false, Bool.true_and,
      Bool.false_eq_true, if_false, Option.map_some, String.toList_ofList, parse?_of_relative hword htext]
  · have hrooted := head?_ne_separator hroot
    have hprobe := Bool.eq_false_iff.2 (mt probe_iff.1 hstart)
    simp only [parseSliced?, hrooted, hprobe, Option.bind_some, Bool.not_false, Bool.true_and,
      Bool.false_eq_true, if_false, Option.map_some, parse?_of_plain hroot hstart]

-- the probe can end inside a character, and then it finds no marker
example : sliceTo? "namespaceé" markerLength = none ∧ (parse? "namespaceé" ⟨0, 11⟩).isSome = true := by decide

/-! ## Names -/

/-- **Exactly the names are read, and nothing of them is lost.** Any text is read as a name exactly if it is spelled as
one; no cut of the reader is off the boundary of a character. A name that is read keeps its text and its span, is spelled
with its flags and segments (relative if the text starts with the keyword), never has both flags, and is its namespace
with its last segment; and the texts that are read with the same flags and segments are those that are the same but for
the case of the keyword. -/
theorem parse?_reads_names (source : String) (span : Span) :
    ((∃ n, parse? source span = some n) ↔
        ∃ rooted relative segments, Spelled source.toList rooted relative segments) ∧
      parseSliced? source span = some (parse? source span) ∧
      ∀ n, parse? source span = some n →
        n.span = span ∧ n.text = source ∧ ReadAs source.toList n.rooted n.relative n.segments ∧
          ¬ (n.rooted = true ∧ n.relative = true) ∧ n.namespacePart ++ [n.lastSegment] = n.segments ∧
          ∀ source' span' n', parse? source' span' = some n' →
            ((n.rooted = n'.rooted ∧ n.relative = n'.relative ∧ n.segments = n'.segments) ↔
              SameButKeyword source.toList source'.toList) := by
  refine ⟨exists_parse?_iff, parseSliced?_eq source span, fun n h => ?_⟩
  obtain ⟨hspan, htext, hread⟩ := parse?_eq_some_iff.1 h
  exact ⟨hspan, htext, hread, hread.spelled.not_both, namespacePart_append_lastSegment hread.spelled.labelled.1,
    fun source' span' n' h' => same_iff h h'⟩

/-- the keyword in two spellings, in front of a label that starts with a character of two bytes -/
theorem parse?_reads_names_sample :
    (parse? "NameSpace\\Über\\B" ⟨3, 20⟩ =
        some ⟨⟨3, 20⟩, "NameSpace\\Über\\B", false, true, ["Über", "B"]⟩ ∧
      parse? "namespace\\Über\\B" ⟨0, 17⟩ =
        some ⟨⟨0, 17⟩, "namespace\\Über\\B", false, true, ["Über", "B"]⟩) ∧
      SameButKeyword "NameSpace\\Über\\B".toList "namespace\\Über\\B".toList := by
  have hmixed : parse? "NameSpace\\Über\\B" ⟨3, 20⟩ =
      some ⟨⟨3, 20⟩, "NameSpace\\Über\\B", false, true, ["Über", "B"]⟩ := by decide
  have hsmall : parse? "namespace\\Über\\B" ⟨0, 17⟩ =
      some ⟨⟨0, 17⟩, "namespace\\Über\\B", false, true, ["Über", "B"]⟩ := by decide
  obtain ⟨-, -, -, -, -, hsame⟩ := (parse?_reads_names "NameSpace\\Über\\B" ⟨3, 20⟩).2.2 _ hmixed
  exact ⟨⟨hmixed, hsmall⟩, (hsame _ _ _ hsmall).1 ⟨rfl, rfl, rfl⟩⟩

end Isolation.WrittenName
