/-
The value of a string literal with a namespace put behind its leading separators.

- `Leading style w u`: `u` spells separators in front of `w`.
- `exists_leading`: every content starts with some, up to the first character that is none.
- `values_insert`: the value behind the separators gets the namespace and one more separator, unless a single backslash
  at their end makes an escape with the first characters of the namespace.
- `escape?_label`: in double quotes it does exactly for the labels that `startsEscape` tells.
- `endsLone_ofContent`: the literal tells whether such a backslash is there.
-/
import Isolation.Proofs.Name.Decision
import Isolation.Proofs.Source.Reading

namespace Isolation.Literal

variable {style : QuoteStyle} {u w : List Char}

/-- the characters that a content stands for -/
def values (style : QuoteStyle) (content : List Char) : List Char := (pieces style content).map Piece.value

/-! ## Single pieces -/

theorem pieces_cons {c : Char} (hc : c ≠ '\\') (cs : List Char) :
    pieces style (c :: cs) = ⟨c, [c]⟩ :: pieces style cs := by
  rw [pieces, if_neg hc]

theorem pieces_pair (style : QuoteStyle) (cs : List Char) :
    pieces style ('\\' :: '\\' :: cs) = ⟨'\\', ['\\', '\\']⟩ :: pieces style cs := by
  rw [pieces, if_pos rfl]
  cases style <;> rfl

theorem pieces_lone {cs : List Char} (h : escape? style cs = none) :
    pieces style ('\\' :: cs) = ⟨'\\', ['\\']⟩ :: pieces style cs := by
  rw [pieces, if_pos rfl, h]

theorem doubleEscape?_value {cs : List Char} {v : Char} {n : Nat} (h : doubleEscape? cs = some (v, n)) :
    v = escapedChar ∨ (n = 1 ∧ (∃ rest, cs = v :: rest) ∧ (v = '\\' ∨ v = '"' ∨ v = '$')) := by
  cases cs with
  | nil => simp [doubleEscape?] at h
  | cons c cs =>
    rw [doubleEscape?] at h
    split at h
    · rename_i hself
      simp only [Option.some.injEq, Prod.mk.injEq] at h
      obtain ⟨rfl, rfl⟩ := h
      simp only [Bool.or_eq_true, decide_eq_true_eq] at hself
      exact .inr ⟨rfl, ⟨cs, rfl⟩, by tauto⟩
    · left
      split at h
      · simpa using (congrArg (Option.map Prod.fst) h).symm
      · split at h
        · simpa using (congrArg (Option.map Prod.fst) h).symm
        · split at h
          · split at h
            · cases h
            · simpa using (congrArg (Option.map Prod.fst) h).symm
          · split at h
            · simpa using (congrArg (Option.map Prod.fst) h).symm
            · cases h

/-- what an escape stands for: the character behind the backslash, or one that no name can hold -/
theorem escape?_value {cs : List Char} {v : Char} {n : Nat} (h : escape? style cs = some (v, n)) :
    v = escapedChar ∨ (n = 1 ∧ (∃ rest, cs = v :: rest) ∧ (v = '\\' ∨ v = '"' ∨ v = '$' ∨ v = '\'')) := by
  cases style with
  | single =>
    cases cs with
    | nil => simp [escape?] at h
    | cons c cs =>
      rw [escape?] at h
      split at h
      · rename_i hself
        simp only [Option.some.injEq, Prod.mk.injEq] at h
        obtain ⟨rfl, rfl⟩ := h
        simp only [Bool.or_eq_true, decide_eq_true_eq] at hself
        exact .inr ⟨rfl, ⟨cs, rfl⟩, by tauto⟩
      · cases h
  | double =>
    rcases doubleEscape?_value h with hnul | ⟨hn, hcs, hv⟩
    · exact .inl hnul
    · exact .inr ⟨hn, hcs, by tauto⟩

/-- a word character stands for itself -/
theorem content_of_word {content : List Char} {c : Char} (hhead : (values style content).head? = some c)
    (hword : Ascii.isWord c = true) : ∃ rest, content = c :: rest := by
  cases content with
  | nil => simp [values, pieces] at hhead
  | cons d rest =>
    by_cases hd : d = '\\'
    · subst hd
      exfalso
      rw [values, pieces, if_pos rfl] at hhead
      cases hescape : escape? style rest with
      | none =>
        rw [hescape] at hhead
        obtain rfl : '\\' = c := by simpa using hhead
        exact absurd hword (by decide)
      | some found =>
        obtain ⟨v, n⟩ := found
        rw [hescape] at hhead
        obtain rfl : v = c := by simpa using hhead
        rcases escape?_value hescape with rfl | ⟨-, -, rfl | rfl | rfl | rfl⟩ <;> exact absurd hword (by decide)
    · rw [values, pieces_cons hd] at hhead
      obtain rfl : d = c := by simpa using hhead
      exact ⟨rest, rfl⟩

/-! ## Leading separators -/

/-- the first characters spell separators: doubled backslashes, and perhaps a single one at the end -/
inductive Leading (style : QuoteStyle) (w : List Char) : List Char → Prop where
  | nil : Leading style w []
  | lone (h : escape? style w = none) : Leading style w ['\\']
  | pair {u : List Char} (hrest : Leading style w u) : Leading style w ('\\' :: '\\' :: u)

/-- how many separators are spelled -/
def leadCount (u : List Char) : Nat := (u.length + 1) / 2

/-- the pieces of leading separators -/
theorem Leading.pieces (h : Leading style w u) :
    ∃ seps, pieces style (u ++ w) = seps ++ pieces style w ∧ (∀ p ∈ seps, p.value = separator) ∧
      seps.length = leadCount u ∧ seps.flatMap Piece.raw = u := by
  induction h with
  | nil => exact ⟨[], rfl, by simp, rfl, rfl⟩
  | lone hnone =>
    exact ⟨[⟨'\\', ['\\']⟩], by rw [List.singleton_append, pieces_lone hnone]; rfl, by simp [separator], rfl, rfl⟩
  | @pair u _ ih =>
    obtain ⟨seps, hpieces, hvalues, hlength, hraw⟩ := ih
    refine ⟨⟨'\\', ['\\', '\\']⟩ :: seps, ?_, ?_, ?_, ?_⟩
    · rw [List.cons_append, List.cons_append, pieces_pair, hpieces]
      rfl
    · simpa [separator] using hvalues
    · rw [List.length_cons, hlength, leadCount, leadCount, List.length_cons, List.length_cons]
      omega
    · rw [List.flatMap_cons, hraw]
      rfl

/-- they are written as separators, too -/
theorem Leading.separators (h : Leading style w u) : ∀ c ∈ u, c = separator := by
  induction h with
  | nil => simp
  | lone _ => simp [separator]
  | pair _ ih => simpa [separator] using ih

theorem Leading.values (h : Leading style w u) :
    values style (u ++ w) = List.replicate (leadCount u) separator ++ Literal.values style w := by
  obtain ⟨seps, hpieces, hvalues, hlength, -⟩ := h.pieces
  have hseps : seps.map Piece.value = List.replicate (leadCount u) separator := by
    rw [List.eq_replicate_iff]
    exact ⟨by rw [List.length_map, hlength], by simpa using hvalues⟩
  rw [Literal.values, Literal.values, hpieces, List.map_append, hseps]

/-- every content starts with as many as there are -/
theorem exists_leading (style : QuoteStyle) (content : List Char) :
    ∃ u w, content = u ++ w ∧ Leading style w u ∧ (values style w).head? ≠ some separator := by
  induction hn : content.length using Nat.strongRecOn generalizing content with
  | ind n ih =>
    subst hn
    match content with
    | [] => exact ⟨[], [], rfl, .nil, by simp [values, Literal.pieces]⟩
    | c :: cs =>
      by_cases hc : c = '\\'
      · subst hc
        cases hescape : escape? style cs with
        | none =>
          refine ⟨['\\'], cs, rfl, .lone hescape, ?_⟩
          cases cs with
          | nil => simp [values, Literal.pieces]
          | cons d ds =>
            have hd : d ≠ '\\' := by
              rintro rfl
              cases style <;> simp [escape?, doubleEscape?] at hescape
            simp [values, pieces_cons hd, separator, hd]
        | some found =>
          obtain ⟨v, n⟩ := found
          by_cases hv : v = separator
          · -- a doubled backslash
            have hpair : ∃ rest, cs = '\\' :: rest := by
              rcases escape?_value hescape with hnul | ⟨-, ⟨rest, hrest⟩, -⟩
              · exact absurd (hnul.symm.trans hv) (by decide)
              · exact ⟨rest, by rw [hrest, hv]; rfl⟩
            obtain ⟨rest, rfl⟩ := hpair
            obtain ⟨u, w, rfl, hleading, hhead⟩ := ih rest.length (by simp) rest rfl
            exact ⟨'\\' :: '\\' :: u, w, rfl, .pair hleading, hhead⟩
          · refine ⟨[], '\\' :: cs, rfl, .nil, ?_⟩
            rw [values, Literal.pieces, if_pos rfl, hescape]
            simpa using hv
      · exact ⟨[], c :: cs, rfl, .nil, by simp [values, pieces_cons hc, separator, hc]⟩

/-- leading separators before something else; a single backslash at their end must not make an escape with it -/
theorem Leading.before {w' : List Char} (h : Leading style w u)
    (hlone : u.length % 2 = 1 → escape? style w' = none) : Leading style w' u := by
  induction h with
  | nil => exact .nil
  | lone _ => exact .lone (hlone rfl)
  | @pair u _ ih =>
    refine .pair (ih fun hodd => hlone ?_)
    rw [List.length_cons, List.length_cons]
    omega

/-- where the single backslash does make an escape, the value has one separator less, and the escape -/
theorem Leading.values_joined {w' : List Char} {v : Char} {n : Nat} (h : Leading style w u) (hodd : u.length % 2 = 1)
    (hescape : escape? style w' = some (v, n)) :
    Literal.values style (u ++ w') =
      List.replicate (leadCount u - 1) separator ++ v :: Literal.values style (w'.drop n) := by
  induction h with
  | nil => simp at hodd
  | lone _ =>
    rw [List.singleton_append, Literal.values, Literal.pieces, if_pos rfl, hescape]
    rfl
  | @pair u _ ih =>
    have hodd : u.length % 2 = 1 := by
      rw [List.length_cons, List.length_cons] at hodd
      omega
    have hrest := ih hodd
    obtain ⟨k, hk⟩ : ∃ k, leadCount u = k + 1 := ⟨u.length / 2, by rw [leadCount]; omega⟩
    have hcount : leadCount ('\\' :: '\\' :: u) = leadCount u + 1 := by
      rw [leadCount, leadCount, List.length_cons, List.length_cons]
      omega
    rw [hk, Nat.add_sub_cancel] at hrest
    rw [List.cons_append, List.cons_append, Literal.values, pieces_pair, List.map_cons, ← Literal.values, hrest, hcount,
      hk, Nat.add_sub_cancel, List.replicate_succ, List.cons_append]
    rfl

/-! ## A namespace put behind them -/

/-- how a row of labels is spelled with separators of one kind behind them -/
def spelled (sep : String) (labels : List String) : List Char := labels.flatMap fun l => l.toList ++ sep.toList

theorem values_append_label {label : List Char} (h : separator ∉ label) (rest : List Char) :
    values style (label ++ rest) = label ++ values style rest := by
  induction label with
  | nil => rfl
  | cons c cs ih =>
    have hc : c ≠ '\\' := fun heq => h (heq ▸ List.mem_cons_self)
    rw [List.cons_append, values, pieces_cons hc, List.map_cons, ← values,
      ih fun hmem => h (List.mem_cons_of_mem c hmem)]
    rfl

theorem isLabel_head {l : String} (h : isLabel l = true) :
    ∃ d ds, l.toList = d :: ds ∧ d ≠ '\\' ∧ d ≠ '\'' := by
  obtain ⟨d, ds, hd, hstart, -⟩ := isLabel_cons h
  refine ⟨d, ds, hd, ?_, ?_⟩
  · rintro rfl
    exact absurd hstart (by decide)
  · rintro rfl
    exact absurd hstart (by decide)

/-- the labels and their separators come out as they are, if a single backslash is not followed by an escape -/
theorem values_spelled {sep : String} {labels : List String} (hlabels : ∀ l ∈ labels, isLabel l = true)
    (hsep : sep = "\\\\" ∨ (sep = "\\" ∧ style = .single)) {c : Char} (hc : c ≠ '\\' ∧ c ≠ '\'') (cs : List Char) :
    values style (spelled sep labels ++ c :: cs) =
      labels.flatMap (fun l => l.toList ++ [separator]) ++ values style (c :: cs) := by
  induction labels with
  | nil => rfl
  | cons l labels ih =>
    have ih := ih fun m hm => hlabels m (List.mem_cons_of_mem l hm)
    have hrest :
        spelled sep (l :: labels) ++ c :: cs = l.toList ++ (sep.toList ++ (spelled sep labels ++ c :: cs)) := by
      simp [spelled]
    rw [hrest, values_append_label (separator_not_mem_label (hlabels l List.mem_cons_self))]
    have hone : values style (sep.toList ++ (spelled sep labels ++ c :: cs)) =
        separator :: values style (spelled sep labels ++ c :: cs) := by
      have hnext : ∃ d ds, spelled sep labels ++ c :: cs = d :: ds ∧ d ≠ '\\' ∧ d ≠ '\'' := by
        cases labels with
        | nil => exact ⟨c, cs, rfl, hc⟩
        | cons m labels =>
          obtain ⟨d, ds, hd, hne⟩ := isLabel_head (hlabels m (by simp))
          exact ⟨d, _, by rw [spelled, List.flatMap_cons, hd]; rfl, hne⟩
      rcases hsep with rfl | ⟨rfl, rfl⟩
      · exact congrArg (List.map Piece.value) (pieces_pair style (spelled "\\\\" labels ++ c :: cs))
      · obtain ⟨d, ds, hd, hslash, hquote⟩ := hnext
        have hlone : escape? .single (spelled "\\" labels ++ c :: cs) = none := by
          rw [hd]
          simp [escape?, hslash, hquote]
        exact congrArg (List.map Piece.value) (pieces_lone hlone)
    rw [hone, ih]
    simp

/-- **The value behind the leading separators gets the labels**, each with one separator behind it. -/
theorem values_insert {sep : String} {labels : List String} {c : Char} {cs : List Char}
    (hlabels : ∀ l ∈ labels, isLabel l = true) (hsep : sep = "\\\\" ∨ (sep = "\\" ∧ style = .single))
    (hleading : Leading style (c :: cs) u) (hc : c ≠ '\\' ∧ c ≠ '\'')
    (hlone : u.length % 2 = 1 → escape? style (spelled sep labels ++ c :: cs) = none) :
    values style (u ++ (spelled sep labels ++ c :: cs)) = List.replicate (leadCount u) separator ++
      (labels.flatMap (fun l => l.toList ++ [separator]) ++ values style (c :: cs)) := by
  rw [(hleading.before hlone).values, values_spelled hlabels hsep hc]

/-- the text starts like an escape of double quotes, its backslash aside: with the letter of a control character, or
with a hexadecimal number -/
def startsEscape (text : String) : Bool :=
  match text.toList with
  | [] => false
  | c :: cs => ['n', 't', 'r', 'v', 'e', 'f'].contains c || (c == 'x' && cs.head?.any Ascii.isHexDigit)

theorem not_isOctal_of_start {c : Char} (h : isLabelStart c = true) : isOctal c = false := by
  by_contra hoctal
  have hle : 48 ≤ c.toNat ∧ c.toNat ≤ 55 := by
    rw [Bool.not_eq_false, isOctal, Bool.and_eq_true, decide_eq_true_eq, decide_eq_true_eq] at hoctal
    exact hoctal
  simp only [isLabelStart, Bool.or_eq_true, Ascii.isLetter_iff, decide_eq_true_eq, Bool.not_eq_true', Ascii.isAscii,
    decide_eq_false_iff_not] at h
  rcases h with (h | rfl) | h
  · omega
  · exact absurd hle (by decide)
  · omega

/-- behind an `x`, hexadecimal digits are counted only if the first character is one -/
theorem doubleEscape?_x (cs : List Char) :
    (doubleEscape? ('x' :: cs)).isSome = cs.head?.any Ascii.isHexDigit := by
  cases cs with
  | nil => rfl
  | cons d ds => cases hd : Ascii.isHexDigit d <;> simp [doubleEscape?, isOctal, hd]

/-- **When a label makes an escape** with a single backslash in front of it: in single quotes never, in double quotes
exactly when it starts like one. -/
theorem escape?_label {label : String} (hlabel : isLabel label = true) (rest : List Char) :
    (escape? style (label.toList ++ '\\' :: rest)).isSome = true ↔ style = .double ∧ startsEscape label = true := by
  obtain ⟨c, cs, hcs, hstart, hrest⟩ := isLabel_cons hlabel
  have hself : c ≠ '\\' ∧ c ≠ '"' ∧ c ≠ '$' ∧ c ≠ '\'' := by
    refine ⟨?_, ?_, ?_, ?_⟩ <;> (rintro rfl; exact absurd hstart (by decide))
  rw [startsEscape, hcs, List.cons_append]
  cases style with
  | single => simp [escape?, hself]
  | double =>
    rw [escape?]
    by_cases hletter : c = 'n' ∨ c = 't' ∨ c = 'r' ∨ c = 'v' ∨ c = 'e' ∨ c = 'f'
    · rcases hletter with rfl | rfl | rfl | rfl | rfl | rfl <;> simp [doubleEscape?]
    by_cases hx : c = 'x'
    · subst hx
      rw [doubleEscape?_x]
      cases cs <;> simp [show Ascii.isHexDigit '\\' = false by decide]
    -- what is left is the brace behind a `u`, which no label holds
    have hbrace : cs.head?.getD '\\' ≠ '{' := by
      cases cs with
      | nil => decide
      | cons d ds =>
        rintro rfl
        exact absurd (hrest _ List.mem_cons_self) (by decide)
    simp only [not_or] at hletter
    simp [doubleEscape?, hself, hletter, hx, hbrace, not_isOctal_of_start hstart]

/-! ## Whole literals -/

/-- the marker of a literal, if it has one -/
def IsMarker (m : List Char) : Prop := m = [] ∨ m = ['b'] ∨ m = ['B']

/-- a marker and a quote take one byte for each character -/
theorem byteLength_opening {m : List Char} (hm : IsMarker m) (u : List Char) :
    byteLength (m ++ style.quote :: u) = m.length + 1 + byteLength u := by
  have hmarker : byteLength m = m.length := by rcases hm with rfl | rfl | rfl <;> rfl
  have hquote : style.quote.utf8Size = 1 := by cases style <;> rfl
  rw [byteLength_append, byteLength_cons, hmarker, hquote, Nat.add_assoc]

/-- the literal with this marker, these quotes and this content, at an offset -/
def ofContent (start : Nat) (m : List Char) (style : QuoteStyle) (content : List Char) : Literal where
  span := ⟨start, start + byteLength (m ++ style.quote :: (content ++ [style.quote]))⟩
  style
  decoded := decode style (start + m.length + 1) content
  contentEnd := start + m.length + 1 + byteLength content
  escapedSeparators := Text.occursIn ['\\', '\\'] content

theorem ofQuoted?_content {size start contentStart : Nat} {quoted : List Char} {l : Literal}
    (h : ofQuoted? style size start quoted contentStart = some l) :
    ∃ content, quoted = content ++ [style.quote] ∧
      l = ⟨⟨start, start + size⟩, style, decode style contentStart content, contentStart + byteLength content,
        Text.occursIn ['\\', '\\'] content⟩ := by
  rw [ofQuoted?] at h
  split at h
  · rename_i hlast
    cases h
    have hsplit := List.dropLast_append_getLast? _ hlast
    exact ⟨quoted.dropLast, hsplit.symm, rfl⟩
  · cases h

theorem ofQuoted?_append (style : QuoteStyle) (size start contentStart : Nat) (content : List Char) :
    ofQuoted? style size start (content ++ [style.quote]) contentStart =
      some ⟨⟨start, start + size⟩, style, decode style contentStart content, contentStart + byteLength content,
        Text.occursIn ['\\', '\\'] content⟩ := by
  rw [ofQuoted?, if_pos (by simp)]
  simp

/-- reading a literal: a marker or none, a quote, the content and the same quote -/
theorem ofSource?_content {raw : String} {start : Nat} {l : Literal} (h : ofSource? raw start = some l) :
    ∃ m style content, IsMarker m ∧ raw.toList = m ++ style.quote :: (content ++ [style.quote]) ∧
      l = ofContent start m style content := by
  have hfinish (m : List Char) (style : QuoteStyle) {rest : List Char} (hm : IsMarker m)
      (hraw : raw.toList = m ++ style.quote :: rest)
      (hquoted : ofQuoted? style (byteLength raw.toList) start rest (start + m.length + 1) = some l) :
      ∃ m style content, IsMarker m ∧ raw.toList = m ++ style.quote :: (content ++ [style.quote]) ∧
        l = ofContent start m style content := by
    obtain ⟨content, rfl, rfl⟩ := ofQuoted?_content hquoted
    exact ⟨m, style, content, hm, hraw, by rw [ofContent, hraw]⟩
  unfold ofSource? at h
  dsimp only at h
  split at h
  · rename_i rest hraw
    split at h
    · exact hfinish ['b'] .single (.inr (.inl rfl)) hraw h
    · exact hfinish ['b'] .double (.inr (.inl rfl)) hraw h
    · cases h
  · rename_i rest hraw
    split at h
    · exact hfinish ['B'] .single (.inr (.inr rfl)) hraw h
    · exact hfinish ['B'] .double (.inr (.inr rfl)) hraw h
    · cases h
  · split at h
    · rename_i hraw
      exact hfinish [] .single (.inl rfl) hraw h
    · rename_i hraw
      exact hfinish [] .double (.inl rfl) hraw h
    · cases h

theorem ofSource?_ofContent (raw : String) {start : Nat} {m content : List Char} (hm : IsMarker m)
    (hraw : raw.toList = m ++ style.quote :: (content ++ [style.quote])) :
    ofSource? raw start = some (ofContent start m style content) := by
  have hquoted := ofQuoted?_append style (byteLength raw.toList) start (start + m.length + 1) content
  rw [ofContent, ← hraw]
  unfold ofSource?
  rcases hm with rfl | rfl | rfl <;> cases style <;> (rw [hraw] at hquoted ⊢; exact hquoted)

theorem map_withOffsets (base : Nat) (ps : List Piece) :
    (withOffsets base ps).map Prod.fst = ps.map Piece.value := by
  induction ps generalizing base with
  | nil => rfl
  | cons p ps ih => rw [withOffsets, List.map_cons, List.map_cons, ih]

theorem value_ofContent (start : Nat) (m : List Char) (style : QuoteStyle) (content : List Char) :
    (ofContent start m style content).value = String.ofList (values style content) := by
  rw [value, ofContent, decode, map_withOffsets, values]

theorem withOffsets_append (base : Nat) (ps qs : List Piece) :
    withOffsets base (ps ++ qs) =
      withOffsets base ps ++ withOffsets (base + byteLength (ps.flatMap Piece.raw)) qs := by
  induction ps generalizing base with
  | nil => rfl
  | cons p ps ih =>
    rw [List.cons_append, withOffsets, withOffsets, ih, List.flatMap_cons, byteLength_append, Nat.add_assoc]
    rfl

/-- the insertion goes behind the leading separators -/
theorem insertionOffset_ofContent (start : Nat) {m : List Char} {c : Char} (h : Leading style w u)
    (hc : (values style w).head? = some c) (hne : c ≠ separator) :
    (ofContent start m style (u ++ w)).insertionOffset = start + m.length + 1 + byteLength u := by
  obtain ⟨seps, hpieces, hvalues, -, hraw⟩ := h.pieces
  obtain ⟨p, ps, hps⟩ : ∃ p ps, pieces style w = p :: ps := by
    cases hw : pieces style w with
    | nil => simp [values, hw] at hc
    | cons p ps => exact ⟨p, ps, rfl⟩
  have hp : p.value = c := by simpa [values, hps] using hc
  have hskip : ∀ base, (withOffsets base seps).find? (fun d => d.1 != separator) = none := by
    intro base
    rw [List.find?_eq_none]
    intro d hd
    have hfst : d.1 ∈ (withOffsets base seps).map Prod.fst := List.mem_map_of_mem hd
    rw [map_withOffsets] at hfst
    obtain ⟨q, hq, hqd⟩ := List.mem_map.1 hfst
    simp [← hqd, hvalues q hq]
  rw [insertionOffset, ofContent]
  dsimp only
  rw [decode, hpieces, hps, withOffsets_append, List.find?_append, hskip, hraw, withOffsets]
  simp [hp, hne]

/-- text put into the literal goes right behind a separator that is spelled by a single backslash -/
def endsLone (l : Literal) : Prop := ∃ d ∈ l.decoded, d.1 = separator ∧ d.2 + 1 = l.insertionOffset

instance (l : Literal) : Decidable l.endsLone := inferInstanceAs (Decidable (∃ d ∈ l.decoded, _))

/-- of leading separators, only a single backslash at their end is one byte long -/
theorem Leading.exists_last (h : Leading style w u) (base : Nat) :
    (∃ d ∈ decode style base (u ++ w), d.1 = separator ∧ d.2 + 1 = base + byteLength u) ↔ u.length % 2 = 1 := by
  induction h generalizing base with
  | nil =>
    refine ⟨fun ⟨d, hd, _, hoffset⟩ => ?_, fun hodd => by simp at hodd⟩
    have hbound := (withOffsets_bounds _ _ d hd).1
    have hzero : byteLength [] = 0 := rfl
    omega
  | lone hnone =>
    refine ⟨fun _ => rfl, fun _ => ⟨(separator, base), ?_, rfl, rfl⟩⟩
    rw [List.singleton_append, decode, pieces_lone hnone, withOffsets]
    exact List.mem_cons_self
  | @pair u _ ih =>
    have hpair : byteLength ['\\', '\\'] = 2 := by decide
    have hlength : byteLength ('\\' :: '\\' :: u) = 2 + byteLength u := by
      rw [← hpair, ← byteLength_append]
      rfl
    have hdecode : decode style base ('\\' :: '\\' :: u ++ w) =
        (separator, base) :: decode style (base + 2) (u ++ w) := by
      rw [List.cons_append, List.cons_append, decode, pieces_pair, withOffsets, hpair]
      rfl
    have hodd : ('\\' :: '\\' :: u).length % 2 = 1 ↔ u.length % 2 = 1 := by
      rw [List.length_cons, List.length_cons]
      omega
    rw [hdecode, hlength, hodd, ← ih (base + 2), List.exists_mem_cons_iff, ← Nat.add_assoc]
    constructor
    · rintro (⟨-, hoffset⟩ | hrest)
      · dsimp only at hoffset
        omega
      · exact hrest
    · exact Or.inr

/-- the literal tells whether a single backslash stands at the end of its leading separators -/
theorem endsLone_ofContent {start : Nat} {m : List Char} {c : Char} (h : Leading style w u)
    (hc : (values style w).head? = some c) (hne : c ≠ separator) :
    (ofContent start m style (u ++ w)).endsLone ↔ u.length % 2 = 1 := by
  rw [endsLone, insertionOffset_ofContent start h hc hne]
  exact h.exists_last (start + m.length + 1)

end Isolation.Literal
