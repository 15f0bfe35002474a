/-
Names and literals read at a node of a source.

- `nameStart_cases`: where a name starts whose node starts at an offset: there, one byte earlier behind which a separator
  stands, or at the keyword of a relative name.
- `nameAt?_eq_some`: a name is a row of labels, and its text is what stands at its span; it does not end with a separator.
- `nameAt?_relative`: a name that starts with the keyword in front of its node is relative.
- `literalAt?_eq_some`: a literal covers the span it was read at, and text put into it goes between its quotes.
- `pieces_tile`: the spellings of the characters of a literal, one after the other, are its content.
-/
import Isolation.Proofs.Name.Spelling
import Isolation.Source.Edit
import Isolation.Source.Lowering

namespace Isolation

/-! ## Bytes of a text -/

namespace Utf8

variable {c : Char} {cs : List Char} {b : UInt8} {bytes tail : List UInt8}

theorem encode_ofList (cs : List Char) : encode (String.ofList cs) = cs.flatMap String.utf8EncodeChar := by
  simp [encode, List.utf8Encode]

theorem encode_eq (s : String) : encode s = s.toList.flatMap String.utf8EncodeChar := by
  rw [← encode_ofList, String.ofList_toList]

/-- a byte taken for the character with its number -/
def latin (b : UInt8) : Char := Char.ofNat b.toNat

theorem toNat_latin (b : UInt8) : (latin b).toNat = b.toNat := by
  have hvalid : b.toNat.isValidChar := Or.inl (by have := b.toNat_lt; omega)
  rw [latin, Char.ofNat, dif_pos hvalid]
  rfl

/-- an ASCII character is its own byte -/
theorem encodeChar_ascii (hc : Ascii.isAscii c = true) : ∃ b, String.utf8EncodeChar c = [b] ∧ latin b = c := by
  have hlow : c.val.toNat < 128 := of_decide_eq_true hc
  refine ⟨UInt8.ofNat c.val.toNat, by rw [String.utf8EncodeChar, if_pos (by omega)], ?_⟩
  rw [latin, UInt8.toNat_ofNat_of_lt' (by change _ < 256; omega)]
  exact Char.ofNat_toNat c

/-- no byte of another character is that of an ASCII character -/
theorem encodeChar_high (hc : Ascii.isAscii c = false) : ∀ b ∈ String.utf8EncodeChar c, 128 ≤ b.toNat := by
  have hhigh : ¬ c.val.toNat ≤ 127 := by
    have : ¬ c.val.toNat < 128 := of_decide_eq_false hc
    omega
  intro b hb
  rw [String.utf8EncodeChar, if_neg hhigh] at hb
  split at hb
  · simp only [List.mem_cons, List.not_mem_nil, or_false] at hb
    rcases hb with rfl | rfl <;> simp <;> omega
  · split at hb
    · simp only [List.mem_cons, List.not_mem_nil, or_false] at hb
      rcases hb with rfl | rfl | rfl <;> simp <;> omega
    · simp only [List.mem_cons, List.not_mem_nil, or_false] at hb
      rcases hb with rfl | rfl | rfl | rfl <;> simp <;> omega

/-- the character that an ASCII byte belongs to -/
theorem eq_latin_of_mem (hb : b.toNat < 128) (hmem : b ∈ String.utf8EncodeChar c) :
    String.utf8EncodeChar c = [b] ∧ latin b = c := by
  cases hc : Ascii.isAscii c with
  | true =>
    obtain ⟨d, hd, hlatin⟩ := encodeChar_ascii hc
    rw [hd, List.mem_singleton] at hmem
    subst hmem
    exact ⟨hd, hlatin⟩
  | false => exact absurd (encodeChar_high hc b hmem) (by omega)

/-- a text that starts with ASCII bytes starts with their characters -/
theorem toList_of_ascii_front (hbytes : ∀ b ∈ bytes, b.toNat < 128)
    (h : cs.flatMap String.utf8EncodeChar = bytes ++ tail) : ∃ rest, cs = bytes.map latin ++ rest := by
  induction bytes generalizing cs with
  | nil => exact ⟨cs, rfl⟩
  | cons b bytes ih =>
    rw [List.forall_mem_cons] at hbytes
    cases cs with
    | nil => cases h
    | cons c cs =>
      rw [List.flatMap_cons] at h
      have hmem : b ∈ String.utf8EncodeChar c := by
        obtain ⟨d, ds, hc⟩ := List.exists_cons_of_ne_nil (String.utf8EncodeChar_ne_nil (c := c))
        rw [hc, List.cons_append, List.cons_append, List.cons.injEq] at h
        rw [hc, h.1]
        exact List.mem_cons_self
      obtain ⟨hc, rfl⟩ := eq_latin_of_mem hbytes.1 hmem
      rw [hc, List.cons_append, List.cons_append, List.nil_append, List.cons.injEq] at h
      obtain ⟨rest, rfl⟩ := ih hbytes.2 h.2
      exact ⟨rest, rfl⟩

/-- a text whose last byte is an ASCII byte ends with its character -/
theorem getLast?_of_encode {s : String} (hb : b.toNat < 128) (h : (encode s).getLast? = some b) :
    s.toList.getLast? = some (latin b) := by
  rw [encode_eq] at h
  rcases List.eq_nil_or_concat s.toList with hnil | ⟨front, c, hcs⟩
  · rw [hnil] at h
    cases h
  · rw [List.concat_eq_append] at hcs
    rw [hcs, List.flatMap_append, List.flatMap_singleton] at h
    rw [List.getLast?_append_of_ne_nil _ String.utf8EncodeChar_ne_nil] at h
    have hmem : b ∈ String.utf8EncodeChar c := List.mem_of_getLast? h
    rw [hcs, (eq_latin_of_mem hb hmem).2, List.getLast?_concat]

end Utf8

theorem Literal.byteLength_append (a b : List Char) : byteLength (a ++ b) = byteLength a + byteLength b := by
  simp [byteLength, total_append]

theorem Literal.byteLength_cons (c : Char) (cs : List Char) : byteLength (c :: cs) = c.utf8Size + byteLength cs := rfl

theorem Utf8.length_encode (s : String) : (encode s).length = Literal.byteLength s.toList := by
  rw [encode_eq]
  induction s.toList with
  | nil => rfl
  | cons c cs ih =>
    rw [List.flatMap_cons, List.length_append, ih, String.length_utf8EncodeChar, Literal.byteLength_cons]

/-! ## Spans of a source -/

/-- a span that ends inside the source -/
def Span.Inside (span : Span) (source : List UInt8) : Prop := span.start ≤ span.stop ∧ span.stop ≤ source.length

section Slices

variable {source bytes : List UInt8} {span : Span} {text : String}

theorem slice?_eq_some (h : Edit.slice? source span = some bytes) :
    span.Inside source ∧ bytes = (source.drop span.start).take (span.stop - span.start) := by
  rw [Edit.slice?, Option.ite_none_right_eq_some, Option.some.injEq] at h
  simpa [Span.Inside] using And.imp_right Eq.symm h

/-- the byte in front of the end of a span is the last one in it -/
theorem getElem?_of_slice? (h : Edit.slice? source span = some bytes) (hlt : span.start < span.stop) :
    source[span.stop - 1]? = bytes.getLast? := by
  obtain ⟨⟨-, hin⟩, rfl⟩ := slice?_eq_some h
  rw [List.getLast?_eq_getElem?, List.length_take, List.length_drop, List.getElem?_take_of_lt (by omega),
    List.getElem?_drop]
  congr 1
  omega

theorem textAt?_eq_some (h : Php.textAt? source span = some text) :
    Edit.slice? source span = some (Utf8.encode text) ∧ span.start + Literal.byteLength text.toList = span.stop := by
  obtain ⟨bytes, hslice, hdecode⟩ := Option.bind_eq_some_iff.1 h
  obtain rfl := Utf8.encode_of_decode? hdecode
  obtain ⟨⟨hle, hin⟩, hbytes⟩ := slice?_eq_some hslice
  have hlength := congrArg List.length hbytes
  rw [Utf8.length_encode, List.length_take, List.length_drop] at hlength
  exact ⟨hslice, by omega⟩

/-- a text that does not end with a separator does not do so in the source -/
theorem not_separator_before (h : Php.textAt? source span = some text) (hlt : span.start < span.stop)
    (hlast : ∃ c, text.toList.getLast? = some c ∧ c ≠ '\\') : source[span.stop - 1]? ≠ some 0x5c := by
  obtain ⟨c, hc, hne⟩ := hlast
  rw [getElem?_of_slice? (textAt?_eq_some h).1 hlt]
  intro hseparator
  have hchar := Utf8.getLast?_of_encode (by decide) hseparator
  rw [hc, Option.some.injEq] at hchar
  exact hne hchar

end Slices

/-! ## Names -/

/-- the segments are labels, at least one -/
def WrittenName.Labelled (n : WrittenName) : Prop := n.segments ≠ [] ∧ n.segments.all isLabel = true

instance (n : WrittenName) : Decidable n.Labelled := inferInstanceAs (Decidable (_ ∧ _ = true))

theorem WrittenName.parse?_eq_some {text : String} {span : Span} {n : WrittenName} (h : parse? text span = some n) :
    n.span = span ∧ n.text = text ∧ n.Labelled ∧ ∃ c, text.toList.getLast? = some c ∧ c ≠ '\\' := by
  obtain ⟨hspan, htext, hread⟩ := parse?_eq_some_iff.1 h
  exact ⟨hspan, htext, hread.spelled.labelled, hread.spelled.last⟩

namespace Php

variable {source : List UInt8} {span : Span} {start : Nat} {n : WrittenName}

/-- where a name starts: at its node, or one byte earlier at a separator, or at the keyword in front of that -/
theorem nameStart_cases (source : List UInt8) (start : Nat) :
    nameStart source start = start ∨
      nameStart source start + 1 = start ∧ source[nameStart source start]? = some 0x5c ∨
      nameStart source start + 10 = start ∧ source[start - 1]? = some 0x5c ∧
        keywordEndsAt source (start - 1) = true := by
  have hsize : relativeKeyword.length = 9 := by decide
  rw [nameStart]
  split
  · rename_i hseparator
    simp only [separatorEndsAt, Bool.and_eq_true, decide_eq_true_eq, beq_iff_eq] at hseparator
    split
    · rename_i hkeyword
      refine .inr (.inr ⟨?_, hseparator.2, hkeyword⟩)
      simp only [keywordEndsAt, Bool.and_eq_true, decide_eq_true_eq] at hkeyword
      omega
    · exact .inr (.inl ⟨by omega, hseparator.2⟩)
  · exact .inl rfl

/-- what is known of a name that was read at a node -/
theorem nameAt?_eq_some (h : nameAt? source span = some n) :
    n.span = ⟨nameStart source span.start, span.stop⟩ ∧ n.Labelled ∧ n.span.start < n.span.stop ∧
      Edit.slice? source n.span = some (Utf8.encode n.text) ∧ source[n.span.stop - 1]? ≠ some 0x5c := by
  obtain ⟨text, htext, hparse⟩ := Option.bind_eq_some_iff.1 h
  obtain ⟨hslice, hlength⟩ := textAt?_eq_some htext
  obtain ⟨hspan, rfl, hlabels, hlast⟩ := WrittenName.parse?_eq_some hparse
  have hlt : nameStart source span.start < span.stop := by
    obtain ⟨c, hc, -⟩ := hlast
    obtain ⟨d, ds, hds⟩ := List.exists_cons_of_ne_nil (List.ne_nil_of_mem (List.mem_of_getLast? hc))
    have hpos := d.utf8Size_pos
    rw [hds, Literal.byteLength_cons] at hlength
    dsimp only at hlength
    omega
  rw [hspan]
  exact ⟨rfl, hlabels, hlt, hslice, not_separator_before htext hlt hlast⟩

theorem toNat_lowerByte (b : UInt8) :
    (lowerByte b).toNat = if 65 ≤ b.toNat ∧ b.toNat ≤ 90 then b.toNat + 32 else b.toNat := by
  have hcapital : (0x41 ≤ b && b ≤ 0x5a) = true ↔ 65 ≤ b.toNat ∧ b.toNat ≤ 90 := by
    rw [Bool.and_eq_true, decide_eq_true_eq, decide_eq_true_eq, UInt8.le_iff_toNat_le, UInt8.le_iff_toNat_le]
    rfl
  rw [lowerByte]
  split
  · rename_i h
    rw [if_pos (hcapital.1 h), UInt8.toNat_add, show (0x20 : UInt8).toNat = 32 from rfl]
    have hbound := hcapital.1 h
    omega
  · rename_i h
    rw [if_neg fun hc => h (hcapital.2 hc)]

/-- a byte and its character have the same small letter -/
theorem toLower_latin (b : UInt8) : (Utf8.latin b).toLower = Utf8.latin (lowerByte b) := by
  rw [← Char.toNat_inj, Ascii.toNat_toLower, Utf8.toNat_latin, Utf8.toNat_latin, toNat_lowerByte]

/-- the keyword that ends at an offset, as the characters of its bytes -/
theorem keyword_of_endsAt {stop : Nat} (h : keywordEndsAt source stop = true) :
    ∃ word, Edit.slice? source ⟨stop - 9, stop⟩ = some word ∧ (∀ b ∈ word, b.toNat < 128) ∧
      WrittenName.Keyword (word.map Utf8.latin) := by
  rw [keywordEndsAt, Bool.and_eq_true, beq_iff_eq] at h
  obtain ⟨word, hslice, hword⟩ := Option.map_eq_some_iff.1 h.2
  have hsmall : ∀ b ∈ relativeKeyword, b.toNat < 128 := by decide +kernel
  refine ⟨word, hslice, fun b hb => ?_, ?_⟩
  · have hlower := hsmall _ (hword ▸ List.mem_map_of_mem (f := lowerByte) hb)
    rw [toNat_lowerByte] at hlower
    split at hlower <;> omega
  · rw [WrittenName.keyword_iff, List.map_map]
    calc word.map (Char.toLower ∘ Utf8.latin)
        = word.map (Utf8.latin ∘ lowerByte) := List.map_congr_left fun b _ => toLower_latin b
      _ = (word.map lowerByte).map Utf8.latin := List.map_map.symm
      _ = "namespace".toList := by rw [hword]; decide

/-- a name that starts with the keyword in front of its node is relative -/
theorem nameAt?_relative (hspan : span.start ≤ span.stop) (hfar : nameStart source span.start + 1 < span.start)
    (h : nameAt? source span = some n) : n.relative = true := by
  obtain ⟨text, htext, hparse⟩ := Option.bind_eq_some_iff.1 h
  obtain ⟨-, hbytes⟩ := slice?_eq_some (textAt?_eq_some htext).1
  obtain ⟨hstart, hseparator, hkeyword⟩ : nameStart source span.start + 10 = span.start ∧
      source[span.start - 1]? = some 0x5c ∧ keywordEndsAt source (span.start - 1) = true := by
    rcases nameStart_cases source span.start with hsame | ⟨hone, -⟩ | hten
    · omega
    · omega
    · exact hten
  obtain ⟨word, hslice, hascii, hword⟩ := keyword_of_endsAt hkeyword
  obtain ⟨-, hwordBytes⟩ := slice?_eq_some hslice
  dsimp only at hbytes hwordBytes
  generalize nameStart source span.start = front at hstart hbytes
  have hfront : (Utf8.encode text).take 9 = word := by
    rw [hbytes, hwordBytes, List.take_take]
    congr 1
    · omega
    · congr 1
      omega
  have hbehind : (Utf8.encode text)[9]? = some 0x5c := by
    rw [hbytes, List.getElem?_take_of_lt (by omega), List.getElem?_drop, ← hseparator]
    congr 1
    omega
  -- the bytes of the text are the keyword, a separator and the rest, and so are its characters
  have hwhole : text.toList.flatMap String.utf8EncodeChar = (word ++ [0x5c]) ++ (Utf8.encode text).drop 10 := by
    rw [← Utf8.encode_eq]
    calc Utf8.encode text
        = (Utf8.encode text).take 9 ++ (Utf8.encode text).drop 9 := (List.take_append_drop 9 _).symm
      _ = word ++ ([0x5c] ++ (Utf8.encode text).drop 10) := by
          rw [hfront, List.drop_eq_getElem?_toList_append, hbehind]
          rfl
      _ = (word ++ [0x5c]) ++ (Utf8.encode text).drop 10 := (List.append_assoc _ _ _).symm
  have hascii' : ∀ b ∈ word ++ [0x5c], b.toNat < 128 := by
    intro b hb
    rcases List.mem_append.1 hb with hb | hb
    · exact hascii b hb
    · obtain rfl := List.mem_singleton.1 hb
      decide
  obtain ⟨rest, hrest⟩ := Utf8.toList_of_ascii_front hascii' hwhole
  rw [List.map_append, List.append_assoc] at hrest
  rw [WrittenName.parse?_of_relative hword hrest, WrittenName.ofParts?_eq_some_iff] at hparse
  exact hparse.2.2.2.1

end Php

/-! ## Literals -/

namespace Literal

/-- the spellings of the characters, one after the other, are the content -/
theorem pieces_tile (style : QuoteStyle) (content : List Char) :
    (pieces style content).flatMap Piece.raw = content := by
  fun_induction pieces style content with
  | case1 => rfl
  | case2 cs value n _ ih => rw [List.flatMap_cons, ih, List.cons_append, List.take_append_drop]
  | case3 cs _ ih => rw [List.flatMap_cons, ih, List.singleton_append]
  | case4 c cs _ ih => rw [List.flatMap_cons, ih, List.singleton_append]

/-- a spelling starts inside what is spelled -/
theorem withOffsets_bounds (base : Nat) (ps : List Piece) :
    ∀ d ∈ withOffsets base ps, base ≤ d.2 ∧ d.2 ≤ base + byteLength (ps.flatMap Piece.raw) := by
  induction ps generalizing base with
  | nil => simp [withOffsets]
  | cons p rest ih =>
    rw [withOffsets, List.flatMap_cons, byteLength_append]
    refine List.forall_mem_cons.2 ⟨⟨Nat.le_refl _, Nat.le_add_right _ _⟩, fun d hd => ?_⟩
    have hin := ih (base + byteLength p.raw) d hd
    omega

theorem insertionOffset_bounds {l : Literal} {contentStart : Nat} {content : List Char}
    (hdecoded : l.decoded = decode l.style contentStart content)
    (hend : l.contentEnd = contentStart + byteLength content) :
    contentStart ≤ l.insertionOffset ∧ l.insertionOffset ≤ l.contentEnd := by
  rw [insertionOffset, hend]
  split
  · rename_i d hd
    have hmem := List.mem_of_find?_eq_some hd
    rw [hdecoded, decode] at hmem
    have hin := withOffsets_bounds _ _ d hmem
    rwa [pieces_tile] at hin
  · exact ⟨Nat.le_add_right _ _, Nat.le_refl _⟩

/-- a literal read behind its opening quote ends with a closing quote, and text goes in front of that -/
theorem ofQuoted?_eq_some {style : QuoteStyle} {size start contentStart : Nat} {quoted : List Char} {l : Literal}
    (h : ofQuoted? style size start quoted contentStart = some l) :
    l.span = ⟨start, start + size⟩ ∧ contentStart ≤ l.insertionOffset ∧
      l.insertionOffset < contentStart + byteLength quoted ∧ quoted.getLast? = some style.quote := by
  rw [ofQuoted?] at h
  split at h
  · rename_i hlast
    cases h
    have hsplit := congrArg byteLength (List.dropLast_append_getLast? _ hlast)
    rw [byteLength_append, byteLength_cons] at hsplit
    have hquote := style.quote.utf8Size_pos
    obtain ⟨hlow, hhigh⟩ := insertionOffset_bounds (l := ⟨⟨start, start + size⟩, style,
      decode style contentStart quoted.dropLast, contentStart + byteLength quoted.dropLast,
      Text.occursIn ['\\', '\\'] quoted.dropLast⟩) rfl rfl
    dsimp only at hhigh
    exact ⟨rfl, hlow, by omega, hlast⟩
  · cases h

/-- text put into a literal goes between its quotes -/
theorem ofSource?_eq_some {raw : String} {start : Nat} {l : Literal} (h : ofSource? raw start = some l) :
    l.span = ⟨start, start + byteLength raw.toList⟩ ∧ start < l.insertionOffset ∧
      l.insertionOffset < start + byteLength raw.toList ∧ ∃ c, raw.toList.getLast? = some c ∧ c ≠ '\\' := by
  have hquoted : ∀ (style : QuoteStyle) (marker rest : List Char), byteLength marker = marker.length →
      raw.toList = marker ++ style.quote :: rest →
      ofQuoted? style (byteLength raw.toList) start rest (start + marker.length + 1) = some l →
      l.span = ⟨start, start + byteLength raw.toList⟩ ∧ start < l.insertionOffset ∧
        l.insertionOffset < start + byteLength raw.toList ∧ ∃ c, raw.toList.getLast? = some c ∧ c ≠ '\\' := by
    intro style marker rest hmarker hraw hread
    obtain ⟨hspan, hlow, hhigh, hlast⟩ := ofQuoted?_eq_some hread
    have hquote : style.quote.utf8Size = 1 := by cases style <;> decide
    have hsize := congrArg byteLength hraw
    rw [byteLength_append, byteLength_cons, hmarker, hquote] at hsize
    refine ⟨hspan, by omega, by omega, style.quote, ?_, by cases style <;> decide⟩
    rw [hraw, List.getLast?_append, List.getLast?_cons, hlast]
    rfl
  unfold ofSource? at h
  dsimp only at h
  split at h
  · rename_i rest hraw
    split at h
    · exact hquoted .single ['b'] _ (by decide) hraw h
    · exact hquoted .double ['b'] _ (by decide) hraw h
    · cases h
  · rename_i rest hraw
    split at h
    · exact hquoted .single ['B'] _ (by decide) hraw h
    · exact hquoted .double ['B'] _ (by decide) hraw h
    · cases h
  · split at h
    · rename_i hraw
      exact hquoted .single [] _ rfl hraw h
    · rename_i hraw
      exact hquoted .double [] _ rfl hraw h
    · cases h

end Literal

/-- what is known of a literal that was read at a span -/
theorem literalAt?_eq_some {source : List UInt8} {span : Span} {l : Literal} (h : Php.literalAt? source span = some l) :
    l.span = span ∧ span.start < l.insertionOffset ∧ l.insertionOffset < span.stop ∧ span.stop ≤ source.length ∧
      source[span.stop - 1]? ≠ some 0x5c := by
  rw [Php.literalAt?] at h
  cases htext : Php.textAt? source span with
  | none =>
    rw [htext] at h
    cases h
  | some text =>
    rw [htext, Option.getD_some] at h
    obtain ⟨hslice, hlength⟩ := textAt?_eq_some htext
    obtain ⟨hspan, hlow, hhigh, hlast⟩ := Literal.ofSource?_eq_some h
    rw [hlength] at hspan hhigh
    exact ⟨hspan, hlow, hhigh, (slice?_eq_some hslice).1.2, not_separator_before htext (hlow.trans hhigh) hlast⟩

end Isolation
