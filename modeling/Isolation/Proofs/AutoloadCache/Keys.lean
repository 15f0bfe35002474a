/-
The keys that replace those of the generated tables. A key is made of any texts: characters that a key cannot hold become
dashes, and dashes are collapsed and trimmed. What letters and digits there are comes through in its order, so the old key,
which is made of nothing else, is still the end of the new one.

- `collapseDashes_append`, `suffix_collapseDashes`: collapsing keeps a front without dashes, and what is collapsed alone is
  the end of what is collapsed with something before it.
- `cacheKey_toList`: the new key starts with the stem of the marker, and only its end is trimmed.
- `keyShaped_cacheKey`, `suffix_cacheKey`: how a key looks, and that it ends with the old one.
- `marker_prefix_cacheKey`: the key starts with the marker if the vendor directory has a letter or a digit to put behind it.
- `cacheKeys_shaped_and_distinct`: keys are well formed, and tables keep all their entries.
-/
import Isolation.AutoloadCache
import Isolation.Proofs.Name.Decision

namespace Isolation

/-! ## Trimming -/

namespace Text

variable {p : Char → Bool}

theorem trimEndChars_prefix (p : Char → Bool) (cs : List Char) : trimEndChars p cs <+: cs := by
  have h := List.reverse_prefix.2 (List.dropWhile_suffix p (l := cs.reverse))
  rwa [List.reverse_reverse] at h

theorem getLast?_trimEndChars (p : Char → Bool) (cs : List Char) : ∀ c ∈ (trimEndChars p cs).getLast?, p c = false := by
  intro c hc
  rw [trimEndChars, List.getLast?_reverse] at hc
  have h := List.head?_dropWhile_not p cs.reverse
  rw [Option.mem_def.1 hc] at h
  simpa using h

/-- what is not to be trimmed keeps everything in front of it -/
theorem trimEndChars_of_last {cs : List Char} {c : Char} (hlast : cs.getLast? = some c) (hc : p c = false) :
    trimEndChars p cs = cs := by
  have h := trimEndChars_append_of_last p cs [] c hlast hc
  rwa [List.append_nil, show trimEndChars p [] = [] from rfl, List.append_nil] at h

/-- trimming leaves the first character, if anything is left -/
theorem head?_trimEndChars {cs : List Char} {c : Char} (hmem : c ∈ cs) (hc : p c = false) :
    (trimEndChars p cs).head? = cs.head? := by
  have hne : trimEndChars p cs ≠ [] := by
    intro hnil
    rw [trimEndChars, List.reverse_eq_nil_iff, List.dropWhile_eq_nil_iff] at hnil
    have htrue := hnil c (List.mem_reverse.2 hmem)
    rw [hc] at htrue
    cases htrue
  obtain ⟨back, hback⟩ := trimEndChars_prefix p cs
  have hhead := congrArg List.head? hback
  rwa [List.head?_append_of_ne_nil _ hne] at hhead

end Text

namespace AutoloadCache

variable {cs front back : List Char} {c : Char}

/-! ## The characters of a key -/

/-- a small letter or a digit -/
def isKeyLetter (c : Char) : Bool := ('a' ≤ c && c ≤ 'z') || Ascii.isDigit c

theorem ne_dash_of_letter (h : isKeyLetter c = true) : c ≠ '-' := by
  rintro rfl
  exact absurd h (by decide)

theorem keyChar_of_letter (h : isKeyLetter c = true) : keyChar c = c := by
  unfold isKeyLetter at h
  simp [keyChar, h]

theorem keyChar_cases (c : Char) : isKeyLetter (keyChar c) = true ∨ keyChar c = '-' := by
  unfold keyChar
  split
  · rename_i h
    rw [Bool.or_eq_true, decide_eq_true_eq] at h
    exact h
  · exact .inr rfl

theorem map_keyChar_of_letters (h : cs.all isKeyLetter = true) : cs.map keyChar = cs := by
  rw [List.all_eq_true] at h
  calc cs.map keyChar
      = cs.map id := List.map_congr_left fun c hc => keyChar_of_letter (h c hc)
    _ = cs := List.map_id cs

/-! ## Collapsing -/

theorem collapseDashes_cons (hc : c ≠ '-') (cs : List Char) : collapseDashes (c :: cs) = c :: collapseDashes cs := by
  simp [collapseDashes, hc]

/-- a dash is put in front, unless there is one -/
theorem collapseDashes_cases (c : Char) (cs : List Char) :
    (c = '-' ∧ (collapseDashes cs).head? = some '-' ∧ collapseDashes (c :: cs) = collapseDashes cs) ∨
      (¬ (c = '-' ∧ (collapseDashes cs).head? = some '-') ∧ collapseDashes (c :: cs) = c :: collapseDashes cs) := by
  by_cases h : c = '-' ∧ (collapseDashes cs).head? = some '-'
  · exact .inl ⟨h.1, h.2, by simp [collapseDashes, h]⟩
  · refine .inr ⟨h, ?_⟩
    rw [collapseDashes, if_neg]
    simpa using h

theorem head?_collapseDashes (cs : List Char) : (collapseDashes cs).head? = cs.head? := by
  cases cs with
  | nil => rfl
  | cons c cs =>
    rcases collapseDashes_cases c cs with ⟨rfl, hhead, h⟩ | ⟨-, h⟩
    · rw [h, hhead, List.head?_cons]
    · rw [h, List.head?_cons, List.head?_cons]

theorem collapseDashes_append (h : '-' ∉ front) (back : List Char) :
    collapseDashes (front ++ back) = front ++ collapseDashes back := by
  induction front with
  | nil => rfl
  | cons c front ih =>
    rw [List.mem_cons, not_or] at h
    rw [List.cons_append, collapseDashes_cons (Ne.symm h.1), ih h.2, List.cons_append]

theorem collapseDashes_of_notMem (h : '-' ∉ cs) : collapseDashes cs = cs := by
  have happend := collapseDashes_append h []
  rwa [List.append_nil, collapseDashes, List.append_nil] at happend

theorem suffix_collapseDashes (front back : List Char) : collapseDashes back <:+ collapseDashes (front ++ back) := by
  induction front with
  | nil => exact List.suffix_rfl
  | cons c front ih =>
    rw [List.cons_append]
    rcases collapseDashes_cases c (front ++ back) with ⟨-, -, h⟩ | ⟨-, h⟩
    · rwa [h]
    · rw [h]
      exact ih.trans (List.suffix_cons _ _)

theorem mem_collapseDashes (hc : c ≠ '-') : c ∈ collapseDashes cs ↔ c ∈ cs := by
  induction cs with
  | nil => rfl
  | cons d cs ih =>
    rcases collapseDashes_cases d cs with ⟨rfl, -, h⟩ | ⟨-, h⟩
    · rw [h, ih, List.mem_cons, or_iff_right hc]
    · rw [h, List.mem_cons, List.mem_cons, ih]

theorem not_doubled_collapseDashes (cs : List Char) : ¬ ['-', '-'] <:+: collapseDashes cs := by
  induction cs with
  | nil => simp [collapseDashes]
  | cons c cs ih =>
    rcases collapseDashes_cases c cs with ⟨-, -, h⟩ | ⟨hnot, h⟩
    · rwa [h]
    · rw [h, List.infix_cons_iff, not_or]
      refine ⟨fun hfront => hnot ?_, ih⟩
      obtain ⟨rfl, htail⟩ := List.cons_prefix_cons.1 hfront
      obtain ⟨rest, hrest⟩ := htail
      exact ⟨rfl, by rw [← hrest]; rfl⟩

/-! ## Keys -/

/-- the letters and digits of a key stand in rows with single dashes between -/
structure KeyShaped (cs : List Char) : Prop where
  chars : ∀ c ∈ cs, isKeyLetter c = true ∨ c = '-'
  single : ¬ ['-', '-'] <:+: cs
  head : cs.head? ≠ some '-'
  last : cs.getLast? ≠ some '-'

/-- what the marker is without its dash -/
def stem : List Char := "isolated".toList

/-- what stands behind the stem in a text that becomes a key -/
def behindStem (vendorDir value key : String) : List Char :=
  ('-' :: ((keyScope vendorDir).toList ++ (valueText value).toList ++ key.toList)).map keyChar

/-- **A key from its parts.** The stem stays as it is; behind it dashes are collapsed, and trimmed at the end. -/
theorem cacheKey_toList (vendorDir value key : String) : (cacheKey vendorDir value key).toList =
    stem ++ Text.trimEndChars (· == '-') (collapseDashes (behindStem vendorDir value key)) := by
  have hraw : (marker ++ keyScope vendorDir ++ valueText value ++ key).toList.map keyChar =
      stem ++ behindStem vendorDir value key := by
    have hmarker : marker.toList = stem ++ ['-'] := by decide
    have hstem : stem.map keyChar = stem := by decide
    simp [behindStem, hmarker, hstem]
  have hfront : ∀ more : List Char, (stem ++ more).dropWhile (· == '-') = stem ++ more := by
    intro more
    rfl
  rw [cacheKey, slug, Text.trimBoth, String.toList_ofList, String.toList_ofList, hraw,
    collapseDashes_append (by decide), hfront]
  exact trimEndChars_append_of_last _ _ _ 'd' (by decide) (by decide)

theorem prefix_cacheKey (vendorDir value key : String) : stem <+: (cacheKey vendorDir value key).toList := by
  rw [cacheKey_toList]
  exact List.prefix_append _ _

theorem keyShaped_cacheKey (vendorDir value key : String) : KeyShaped (cacheKey vendorDir value key).toList := by
  rw [cacheKey_toList]
  have htrim := Text.trimEndChars_prefix (· == '-') (collapseDashes (behindStem vendorDir value key))
  have hlast := Text.getLast?_trimEndChars (· == '-') (collapseDashes (behindStem vendorDir value key))
  generalize Text.trimEndChars (· == '-') (collapseDashes (behindStem vendorDir value key)) = tail at htrim hlast
  constructor
  · intro c hc
    rcases List.mem_append.1 hc with hc | hc
    · have hstem : stem.all isKeyLetter = true := by decide
      exact .inl (List.all_eq_true.1 hstem c hc)
    · by_cases hdash : c = '-'
      · exact .inr hdash
      · have hmem := (mem_collapseDashes hdash).1 (htrim.subset hc)
        obtain ⟨d, -, rfl⟩ := List.mem_map.1 hmem
        exact keyChar_cases d
  · intro hdouble
    have hwhole : stem ++ tail <+: collapseDashes (stem ++ behindStem vendorDir value key) := by
      rw [collapseDashes_append (by decide)]
      exact (List.prefix_append_right_inj stem).2 htrim
    exact not_doubled_collapseDashes _ (hdouble.trans hwhole.isInfix)
  · have hhead : (stem ++ tail).head? = some 'i' := rfl
    rw [hhead]
    decide
  · intro hdash
    rw [List.getLast?_append] at hdash
    cases htail : tail.getLast? with
    | none =>
      rw [htail] at hdash
      exact absurd hdash (by decide)
    | some c =>
      rw [htail, Option.some_or, Option.some.injEq] at hdash
      have hc := hlast c htail
      rw [hdash] at hc
      exact absurd hc (by decide)

/-- the old key, of letters and digits, is the end of the new one -/
theorem suffix_cacheKey (vendorDir value : String) {key : String} (h : key.toList.all isKeyLetter = true) :
    key.toList <:+ (cacheKey vendorDir value key).toList := by
  have hdash : '-' ∉ key.toList := fun hmem => ne_dash_of_letter (List.all_eq_true.1 h '-' hmem) rfl
  have hend : key.toList <:+ collapseDashes (behindStem vendorDir value key) := by
    have hsuffix := suffix_collapseDashes
      (('-' :: ((keyScope vendorDir).toList ++ (valueText value).toList)).map keyChar) (key.toList.map keyChar)
    rw [← List.map_append, List.cons_append, map_keyChar_of_letters h, collapseDashes_of_notMem hdash] at hsuffix
    exact hsuffix
  rw [cacheKey_toList]
  cases hlast : key.toList.getLast? with
  | none =>
    rw [List.getLast?_eq_none_iff.1 hlast]
    exact List.nil_suffix
  | some c =>
    have hc : c ≠ '-' := fun hc => hdash (hc ▸ List.mem_of_getLast? hlast)
    have htext : (collapseDashes (behindStem vendorDir value key)).getLast? = some c := by
      obtain ⟨front, hfront⟩ := hend
      rw [← hfront, List.getLast?_append, hlast, Option.some_or]
    rw [Text.trimEndChars_of_last htext (by simpa using hc)]
    exact hend.trans (List.suffix_append _ _)

/-- Different old keys of letters and digits, equally long, have different new keys, whatever the values and the vendor
directories are. -/
theorem cacheKey_ne (vendorDir vendorDir' value value' : String) {key key' : String}
    (hkey : key.toList.all isKeyLetter = true) (hkey' : key'.toList.all isKeyLetter = true)
    (hlength : key.length = key'.length) (hne : key ≠ key') :
    cacheKey vendorDir value key ≠ cacheKey vendorDir' value' key' := by
  intro hsame
  have hfirst := suffix_cacheKey vendorDir value hkey
  have hsecond := suffix_cacheKey vendorDir' value' hkey'
  rw [← hsame] at hsecond
  have hsize : key.toList.length = key'.toList.length := by rw [String.length_toList, String.length_toList, hlength]
  exact hne (String.toList_inj.1 ((List.suffix_of_suffix_length_le hfirst hsecond hsize.le).eq_of_length hsize))

/-! ## The marker in a key -/

/-- the last three names of a vendor directory -/
def scopeNames (vendorDir : String) : List String :=
  (pathNames vendorDir).drop ((pathNames vendorDir).length - 3)

/-- in lower case a letter is a small one -/
theorem isKeyLetter_of_mem_lowerChar {d : Char} (h : c ∈ Text.lowerChar d)
    (hc : (Ascii.isLetter c || Ascii.isDigit c) = true) : isKeyLetter c = true := by
  rw [Bool.or_eq_true, Ascii.isLetter_iff] at hc
  rcases hc with (hsmall | hcapital) | hdigit
  · have hletter : 'a' ≤ c ∧ c ≤ 'z' := hsmall
    simp [isKeyLetter, hletter]
  · exfalso
    unfold Text.lowerChar at h
    split at h
    · obtain rfl := List.mem_singleton.1 h
      exact absurd hcapital (by decide)
    · split at h
      · rcases List.mem_pair.1 h with rfl | rfl <;> exact absurd hcapital (by decide)
      · obtain rfl := List.mem_singleton.1 h
        unfold Char.toLower at hcapital
        split at hcapital
        · rename_i hupper
          have hlow : 65 ≤ d.val.toNat := hupper.1
          have hhigh : d.val.toNat ≤ 90 := hupper.2
          have hval : (d.val.toNat + 32) % 2 ^ 32 ≤ 90 := hcapital.2
          omega
        · rename_i hupper
          exact hupper hcapital
  · simp [isKeyLetter, hdigit]

theorem mem_joinWith {sep : Char} {parts : List String} {part : String} (hpart : part ∈ parts) (hc : c ∈ part.toList) :
    c ∈ (Text.joinWith sep parts).toList := by
  rw [Text.joinWith, String.toList_ofList]
  induction parts with
  | nil => cases hpart
  | cons first rest ih =>
    cases rest with
    | nil =>
      obtain rfl := List.mem_singleton.1 hpart
      simpa [List.intercalate] using hc
    | cons second rest =>
      rw [List.map_cons, List.map_cons, List.intercalate_cons_cons, List.mem_append, List.mem_append]
      rcases List.mem_cons.1 hpart with rfl | hpart
      · exact .inl (.inl hc)
      · exact .inr (ih hpart)

theorem exists_letter_keyScope {vendorDir : String} (h : ∃ name ∈ scopeNames vendorDir,
    ∃ c ∈ (Text.lowerToAscii name).toList, (Ascii.isLetter c || Ascii.isDigit c) = true) :
    ∃ c ∈ (keyScope vendorDir).toList, isKeyLetter c = true := by
  obtain ⟨name, hname, c, hmem, hc⟩ := h
  rw [Text.lowerToAscii, String.toList_ofList, List.mem_flatMap] at hmem
  obtain ⟨d, hd, hlower⟩ := hmem
  refine ⟨c, ?_, isKeyLetter_of_mem_lowerChar hlower hc⟩
  rw [keyScope, Text.lowerToAscii, String.toList_ofList, List.mem_flatMap, String.toList_append]
  exact ⟨d, List.mem_append_right _ (mem_joinWith hname hd), hlower⟩

/-- **The marker comes through.** Its dash is kept where the vendor directory has a letter or a digit to put behind it. -/
theorem marker_prefix_cacheKey {vendorDir : String} (h : ∃ c ∈ (keyScope vendorDir).toList, isKeyLetter c = true)
    (value key : String) : marker.toList <+: (cacheKey vendorDir value key).toList := by
  obtain ⟨c, hmem, hletter⟩ := h
  have hcollapsed : c ∈ collapseDashes (behindStem vendorDir value key) := by
    rw [mem_collapseDashes (ne_dash_of_letter hletter)]
    refine List.mem_map.2 ⟨c, ?_, keyChar_of_letter hletter⟩
    simp [hmem]
  have hdash : (Text.trimEndChars (· == '-') (collapseDashes (behindStem vendorDir value key))).head? = some '-' := by
    rw [Text.head?_trimEndChars hcollapsed (by simpa using ne_dash_of_letter hletter), head?_collapseDashes]
    rfl
  obtain ⟨rest, hrest⟩ := List.head?_eq_some_iff.1 hdash
  have hmarker : marker.toList = stem ++ ['-'] := by decide
  rw [cacheKey_toList, hmarker, List.prefix_append_right_inj, hrest]
  exact List.prefix_append ['-'] rest

/-! ## Tables keep their entries -/

/-- **Keys are well formed, and no two of a table collide.** Every key is made of small letters, digits and single dashes,
with none at its ends, and starts with `isolated`. Old keys that differ, of letters and digits and equally long, get keys that
differ; so the entries of a table with such keys keep apart. -/
theorem cacheKeys_shaped_and_distinct :
    (∀ vendorDir value key, KeyShaped (cacheKey vendorDir value key).toList ∧
      "isolated".toList <+: (cacheKey vendorDir value key).toList) ∧
    (∀ vendorDir vendorDir' value value' key key', key.toList.all isKeyLetter = true →
      key'.toList.all isKeyLetter = true → key.length = key'.length → key ≠ key' →
      cacheKey vendorDir value key ≠ cacheKey vendorDir' value' key') ∧
    ∀ vendorDir size (entries : List (String × String)),
      (∀ e ∈ entries, e.2.toList.all isKeyLetter = true ∧ e.2.length = size) → (entries.map Prod.snd).Nodup →
      (entries.map fun e => cacheKey vendorDir e.1 e.2).Nodup := by
  refine ⟨fun vendorDir value key => ⟨keyShaped_cacheKey vendorDir value key, prefix_cacheKey vendorDir value key⟩,
    fun vendorDir vendorDir' value value' key key' hkey hkey' hlength hne =>
      cacheKey_ne vendorDir vendorDir' value value' hkey hkey' hlength hne, ?_⟩
  intro vendorDir size entries hentries hnodup
  rw [List.nodup_iff_pairwise_ne, List.pairwise_map] at hnodup ⊢
  refine List.Pairwise.imp_of_mem ?_ hnodup
  intro a b ha hb hne
  obtain ⟨hkey, hsize⟩ := hentries a ha
  obtain ⟨hkey', hsize'⟩ := hentries b hb
  exact cacheKey_ne vendorDir vendorDir a.1 b.1 hkey hkey' (hsize.trans hsize'.symm) hne

/-- Three entries of a table. The values of the first two run into keys that end alike, and the third has the value of the
first. -/
def sampleEntries : List (String × String) :=
  [("$vendorDir . '/acme/a.php'", "0e6d7bf4"), ("$vendorDir . '/acme/a-0e6d7bf4'", "320cde22"),
   ("$vendorDir . '/acme/a.php'", "320cde2f")]

theorem cacheKeys_shaped_and_distinct_sample :
    (∀ e ∈ sampleEntries, e.2.toList.all isKeyLetter = true ∧ e.2.length = 8) ∧ (sampleEntries.map Prod.snd).Nodup ∧
      (sampleEntries.map fun e => cacheKey "/srv/app/vendor" e.1 e.2).Nodup ∧
      cacheKey "/srv/app/vendor" "$vendorDir . '/acme/a.php'" "0e6d7bf4" ≠
        cacheKey "/srv/app/vendor" "$vendorDir . '/acme/a.php'" "320cde2f" := by
  obtain ⟨-, hne, htable⟩ := cacheKeys_shaped_and_distinct
  have hkeys : ∀ e ∈ sampleEntries, e.2.toList.all isKeyLetter = true ∧ e.2.length = 8 := by decide +kernel
  have hnodup : (sampleEntries.map Prod.snd).Nodup := by decide +kernel
  exact ⟨hkeys, hnodup, htable _ 8 _ hkeys hnodup,
    hne _ _ _ _ _ _ (by decide +kernel) (by decide +kernel) (by decide +kernel) (by decide +kernel)⟩

end AutoloadCache

end Isolation
