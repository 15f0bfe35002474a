/-
What the check of the settings promises about the vendor prefix. The check looks at the text as it was given, where
empty segments do not count; a run reads the text without the separators at its ends, where an empty segment between two
separators still does.

- `filledSegments_trimSeparators`: separators at the ends add empty segments only.
- `segment_of_shape`: the segments of a text with the shape of a namespace are labels or empty.
- `shape_trimSeparators`: trimmed, such a text keeps its shape exactly if it still holds a separator.
- `validate_eq_ok_iff`: which settings are accepted, and what becomes of them.
- `accepted_prefix_usable_iff`: when accepted settings can be used, and when they are accepted again.
-/
import Isolation.Proofs.Disk.Location
import Isolation.Proofs.Name.Lookalikes
import Isolation.Run

namespace Isolation

/-! ## Filled segments -/

/-- the segments of a text that are not empty -/
def filledSegments (cs : List Char) : List (List Char) := (cs.splitOn separator).filter (!·.isEmpty)

theorem filledSegments_append (front rest : List Char) :
    filledSegments (front ++ separator :: rest) = filledSegments front ++ filledSegments rest := by
  rw [filledSegments, List.splitOn_append_cons_self, List.filter_append]
  rfl

theorem filledSegments_lead {lead : List Char} (h : ∀ c ∈ lead, c = separator) (rest : List Char) :
    filledSegments (lead ++ rest) = filledSegments rest := by
  induction lead with
  | nil => rfl
  | cons c lead ih =>
    rw [List.forall_mem_cons] at h
    calc filledSegments (c :: lead ++ rest)
        = filledSegments ([] ++ separator :: (lead ++ rest)) := by rw [h.1]; rfl
      _ = filledSegments [] ++ filledSegments (lead ++ rest) := filledSegments_append [] _
      _ = filledSegments rest := by rw [ih h.2]; rfl

theorem filledSegments_back {back : List Char} (h : ∀ c ∈ back, c = separator) (front : List Char) :
    filledSegments (front ++ back) = filledSegments front := by
  cases back with
  | nil => rw [List.append_nil]
  | cons c back =>
    rw [List.forall_mem_cons] at h
    have hempty : filledSegments back = [] := by
      rw [← List.append_nil back, filledSegments_lead h.2]
      rfl
    rw [h.1, filledSegments_append, hempty, List.append_nil]

/-- separators at the ends add empty segments only -/
theorem filledSegments_trimSeparators (s : String) :
    filledSegments (trimSeparators s).toList = filledSegments s.toList := by
  obtain ⟨lead, back, hs, hlead, hback, -⟩ := trimSeparators_parts s
  rw [hs, filledSegments_back hback, filledSegments_lead hlead]

theorem mem_of_mem_splitOn {c d : Char} {cs piece : List Char} (h : piece ∈ cs.splitOn c) (hd : d ∈ piece) :
    d ∈ cs := by
  obtain ⟨i, hi⟩ := List.mem_iff_getElem?.1 h
  have hpiece : piece ∈ (cs.splitOn c).intersperse [c] :=
    List.mem_of_getElem? (List.getElem?_intersperse_two_mul.trans hi)
  have hjoined : d ∈ [c].intercalate (cs.splitOn c) := List.mem_flatten.2 ⟨piece, hpiece, hd⟩
  rwa [List.intercalate_splitOn] at hjoined

/-! ## The shape of a namespace -/

variable {s : String}

/-- a separator at both ends and a single word between them -/
def IsWrappedWord (cs : List Char) : Prop :=
  (cs.head? = some separator ∧ cs.getLast? = some separator) ∧ (filledSegments cs).length = 1

theorem looksLikeNamespace_iff : looksLikeNamespace s = true ↔
    (∀ c ∈ s.toList, isNamespaceChar c = true) ∧ separator ∈ s.toList ∧ filledSegments s.toList ≠ [] ∧
      ¬ IsWrappedWord s.toList ∧ ∀ part ∈ filledSegments s.toList, startsWithDigit part = false := by
  have hne : separator ∈ s.toList → s.toList ≠ [] := List.ne_nil_of_mem
  rw [looksLikeNamespace, looksLikeNamespaceChars]
  change (_ && _ && _ && !(filledSegments s.toList).isEmpty && !(_ && (filledSegments s.toList).length == 1) &&
    !(filledSegments s.toList).any startsWithDigit) = true ↔ _
  simp only [IsWrappedWord, Bool.and_eq_true, Bool.not_eq_true', List.isEmpty_eq_false_iff, List.contains_iff_mem,
    List.all_eq_true, List.any_eq_false, Bool.and_eq_false_iff, beq_eq_false_iff_ne, Bool.not_eq_true]
  tauto

theorem isLabelStart_of_isWord {c : Char} (h : Ascii.isWord c = true) (hdigit : Ascii.isDigit c = false) :
    isLabelStart c = true := by
  simp only [Ascii.isWord, hdigit, Bool.or_false] at h
  rw [isLabelStart, h, Bool.true_or]

theorem not_isBlank_of_isNamespaceChar {c : Char} (h : isNamespaceChar c = true) : Text.isBlank c = false := by
  have hrange : (48 ≤ c.toNat ∧ c.toNat ≤ 57) ∨ (65 ≤ c.toNat ∧ c.toNat ≤ 122) := by
    simp only [isNamespaceChar, Ascii.isWord, Bool.or_eq_true, Ascii.isLetter_iff, Ascii.isDigit_iff,
      decide_eq_true_eq] at h
    rcases h with ((h | h) | rfl) | rfl
    · omega
    · omega
    · decide
    · decide
  simp only [Text.isBlank, Bool.or_eq_false_iff, Bool.and_eq_false_iff, decide_eq_false_iff_not]
  omega

/-- the segments of a text with the shape of a namespace are labels or empty -/
theorem segment_of_shape (h : looksLikeNamespace s = true) {part : String}
    (hpart : part ∈ splitSegments (trimSeparators s)) : part = "" ∨ isLabel part = true := by
  obtain ⟨hchars, -, -, -, hdigits⟩ := looksLikeNamespace_iff.1 h
  obtain ⟨piece, hpiece, rfl⟩ := List.mem_map.1 hpart
  cases piece with
  | nil => exact .inl rfl
  | cons c cs =>
    right
    have hfilled : c :: cs ∈ filledSegments s.toList := by
      rw [← filledSegments_trimSeparators]
      exact List.mem_filter.2 ⟨hpiece, rfl⟩
    have hword : ∀ d ∈ c :: cs, Ascii.isWord d = true := by
      intro d hd
      have hsource : c :: cs ∈ s.toList.splitOn separator := (List.mem_filter.1 hfilled).1
      have hne : d ≠ separator := fun heq => not_mem_of_mem_splitOn hsource (heq ▸ hd)
      simpa [isNamespaceChar, hne] using hchars d (mem_of_mem_splitOn hsource hd)
    rw [List.forall_mem_cons] at hword
    have hfirst : isLabelStart c = true := isLabelStart_of_isWord hword.1 (hdigits _ hfilled)
    have hrest : cs.all isLabelRest = true := by
      rw [List.all_eq_true]
      intro d hd
      rw [isLabelRest, hword.2 d hd, Bool.true_or]
    rw [isLabel, String.toList_ofList, isLabelChars, hfirst, hrest, Bool.and_self]

theorem anchored_of_shape (h : looksLikeNamespace s = true) : Anchored (trimSeparators s).toList := by
  obtain ⟨-, -, hfilled, -, -⟩ := looksLikeNamespace_iff.1 h
  obtain ⟨-, -, -, -, -, hempty | hanchored⟩ := trimSeparators_parts s
  · rw [← filledSegments_trimSeparators, hempty] at hfilled
    exact absurd rfl hfilled
  · exact hanchored

/-- trimmed, a text with the shape of a namespace keeps it exactly if it still holds a separator -/
theorem shape_trimSeparators (h : looksLikeNamespace s = true) :
    looksLikeNamespace (trimSeparators s) = true ↔ separator ∈ (trimSeparators s).toList := by
  obtain ⟨hchars, -, hfilled, -, hdigits⟩ := looksLikeNamespace_iff.1 h
  obtain ⟨lead, back, hs, -⟩ := trimSeparators_parts s
  obtain ⟨first, hfirst, hne⟩ := (anchored_of_shape h).first
  constructor
  · intro htrim
    exact (looksLikeNamespace_iff.1 htrim).2.1
  · intro hsep
    refine looksLikeNamespace_iff.2 ⟨?_, hsep, ?_, ?_, ?_⟩
    · intro c hc
      exact hchars c (by simp [hs, hc])
    · rwa [filledSegments_trimSeparators]
    · -- the first character is no separator
      rintro ⟨⟨hopen, -⟩, -⟩
      rw [hfirst] at hopen
      exact hne (Option.some.inj hopen)
    · rwa [filledSegments_trimSeparators]

/-- a trimmed text with the shape of a namespace is one unless it has an empty segment -/
theorem parse_of_shape (h : looksLikeNamespace s = true) : Namespace.parse (trimSeparators s) =
    if "" ∈ splitSegments (trimSeparators s) then .error (Namespace.segmentFailure "")
    else .ok ⟨splitSegments (trimSeparators s)⟩ := by
  have hsegment : ∀ part ∈ splitSegments (trimSeparators s), part = "" ∨ isLabel part = true :=
    fun part hpart => segment_of_shape h hpart
  have hne := splitSegments_ne_nil (trimSeparators s)
  rw [Namespace.parse, trimSeparators_trimSeparators]
  generalize splitSegments (trimSeparators s) = segments at hsegment hne
  split
  · rename_i hempty
    obtain ⟨bad, hbad⟩ : ∃ bad, segments.find? (fun part => !isLabel part) = some bad := by
      rw [← Option.isSome_iff_exists, List.find?_isSome]
      exact ⟨"", hempty, rfl⟩
    have hnot : isLabel bad = false := by simpa using List.find?_some hbad
    have hblank : bad = "" := (hsegment bad (List.mem_of_find?_eq_some hbad)).resolve_right (by simp [hnot])
    rw [Namespace.ofSegments, if_neg (by simpa using hne), hbad, hblank]
  · rename_i hempty
    rw [Namespace.ofSegments_eq_ok_iff]
    refine ⟨rfl, hne, List.all_eq_true.2 fun part hpart => ?_⟩
    exact (hsegment part hpart).resolve_left fun heq => hempty (heq ▸ hpart)

/-! ## The check of the settings -/

namespace Config

variable {c c' : Config}

theorem checkPrefix_eq (text : String) : checkPrefix text =
    if looksLikeNamespace text = true then .ok ()
    else if Text.isAllBlank text = true then .error (.config "You must specify a namespace prefix" (some "prefix"))
    else .error (.config ("Namespace prefix must be a valid namespace, got '" ++ text ++ "'") (some "prefix")) := by
  rw [checkPrefix]
  by_cases hshape : looksLikeNamespace text = true
  · have hblank : Text.isAllBlank text = false := by
      obtain ⟨hchars, hsep, -⟩ := looksLikeNamespace_iff.1 hshape
      rw [Text.isAllBlank, List.all_eq_false]
      exact ⟨separator, hsep, by simp [not_isBlank_of_isNamespaceChar (hchars _ hsep)]⟩
    simp [hshape, hblank]
  · simp [hshape]

/-- settings are accepted if each check passes, and then the separators at the ends of the prefix are dropped -/
theorem validate_eq_ok_iff : c.validate = .ok c' ↔
    (checkPrefix c.vendorPrefix = .ok () ∧ checkPackageNames c.excludeList "excludelist" = .ok () ∧
      checkExtensions c.extensions = .ok ()) ∧ c' = { c with vendorPrefix := trimSeparators c.vendorPrefix } := by
  rw [validate]
  cases checkPrefix c.vendorPrefix with
  | error f => simp [bind, Except.bind]
  | ok _ =>
    cases checkPackageNames c.excludeList "excludelist" with
    | error f => simp [bind, Except.bind]
    | ok _ =>
      cases checkExtensions c.extensions with
      | error f => simp [bind, Except.bind]
      | ok _ => simp [bind, Except.bind, pure, Except.pure, eq_comm]

theorem shape_of_validate (h : c.validate = .ok c') : looksLikeNamespace c.vendorPrefix = true := by
  obtain ⟨⟨hcheck, -, -⟩, -⟩ := validate_eq_ok_iff.1 h
  rw [checkPrefix_eq] at hcheck
  by_contra hshape
  rw [if_neg hshape] at hcheck
  split at hcheck <;> cases hcheck

/-- accepted settings are accepted again exactly if the prefix still holds a separator -/
theorem validate_validated (h : c.validate = .ok c') : c'.validate =
    if separator ∈ c'.vendorPrefix.toList then .ok c'
    else .error (.config ("Namespace prefix must be a valid namespace, got '" ++ c'.vendorPrefix ++ "'")
      (some "prefix")) := by
  have hshape := shape_of_validate h
  obtain ⟨⟨-, hnames, hextensions⟩, rfl⟩ := validate_eq_ok_iff.1 h
  dsimp only
  split
  · rename_i hsep
    rw [validate_eq_ok_iff]
    refine ⟨⟨?_, hnames, hextensions⟩, ?_⟩
    · rw [checkPrefix_eq, if_pos ((shape_trimSeparators hshape).2 hsep)]
    · rw [trimSeparators_trimSeparators]
  · rename_i hsep
    have hlost : ¬ looksLikeNamespace (trimSeparators c.vendorPrefix) = true :=
      fun hkept => hsep ((shape_trimSeparators hshape).1 hkept)
    have hblank : Text.isAllBlank (trimSeparators c.vendorPrefix) = false := by
      obtain ⟨first, hfirst, -⟩ := (anchored_of_shape hshape).first
      obtain ⟨lead, back, hs, -⟩ := trimSeparators_parts c.vendorPrefix
      have hmem := List.mem_of_mem_head? hfirst
      have hchar := (looksLikeNamespace_iff.1 hshape).1 first (by simp [hs, hmem])
      rw [Text.isAllBlank, List.all_eq_false]
      exact ⟨first, hmem, by simp [not_isBlank_of_isNamespaceChar hchar]⟩
    rw [validate, checkPrefix_eq, if_neg hlost, hblank]
    rfl

end Config

/-! ## Use of the prefix -/

namespace Engine

theorem job_eq_error_iff (e : Engine) (namespaces : NamespaceSet) (f : Failure) :
    e.job namespaces = .error f ↔ Namespace.parse e.config.vendorPrefix = .error f := by
  rw [job]
  cases Namespace.parse e.config.vendorPrefix with
  | error g => simp [bind, Except.bind]
  | ok n => simp [bind, Except.bind, pure, Except.pure]

/-- writing the record fails only as an input or output failure -/
theorem persist_not_validation (p : Project) (d : Disk) (message : String) (field : Option String) :
    p.persist d ≠ .error (.validation message field) := by
  rw [Project.persist, SourceFile.writeIfChanged]
  intro h
  split at h
  · cases h
  · split at h <;> cases h

/-- a run ends in a validation failure only where the prefix is read, before anything is changed -/
theorem mutateNamespaces_validation_iff (e : Engine) (d : Disk) (message : String) (field : Option String) :
    (e.mutateNamespaces d).outcome = .error (.validation message field) ↔
      (e.discover d).namespaces.isEmpty = false ∧
        Namespace.parse e.config.vendorPrefix = .error (.validation message field) := by
  rw [mutateNamespaces, ← job_eq_error_iff e (e.discover d).namespaces]
  dsimp only
  rw [← discover]
  cases hempty : (e.discover d).namespaces.isEmpty with
  | true => simp
  | false =>
    cases hjob : e.job (e.discover d).namespaces with
    | error f => simp
    | ok job =>
      rw [if_neg Bool.false_ne_true]
      dsimp only
      split
      · rename_i f hpersist
        constructor
        · intro hfailure
          cases hfailure
          exact absurd hpersist (persist_not_validation _ _ _ _)
        · rintro ⟨-, hfailure⟩
          cases hfailure
      · simp

end Engine

/-- **Accepted settings.** The check passes a prefix as it was given and drops the separators at its ends. What is left
reads as a namespace exactly if no two separators of it stand side by side, and a run that finds a namespace fails on it
otherwise. It is accepted again exactly if it has more than one segment. -/
theorem Config.accepted_prefix_usable_iff {c c' : Config} (h : c.validate = .ok c') :
    c' = { c with vendorPrefix := trimSeparators c.vendorPrefix } ∧
    ((∃ n, Namespace.parse c'.vendorPrefix = .ok n ∧ n.display = c'.vendorPrefix) ↔
      "" ∉ splitSegments c'.vendorPrefix) ∧
    (∀ project parser d message field,
      (Engine.mutateNamespaces ⟨c', project, parser⟩ d).outcome = .error (.validation message field) ↔
        (Engine.discover ⟨c', project, parser⟩ d).namespaces.isEmpty = false ∧ "" ∈ splitSegments c'.vendorPrefix ∧
          Failure.validation message field = Namespace.segmentFailure "") ∧
    c'.validate =
      if separator ∈ c'.vendorPrefix.toList then .ok c'
      else .error (.config ("Namespace prefix must be a valid namespace, got '" ++ c'.vendorPrefix ++ "'")
        (some "prefix")) := by
  have hshape := shape_of_validate h
  have hagain := validate_validated h
  have heq := (validate_eq_ok_iff.1 h).2
  have hparse : Namespace.parse c'.vendorPrefix =
      if "" ∈ splitSegments c'.vendorPrefix then .error (Namespace.segmentFailure "")
      else .ok ⟨splitSegments c'.vendorPrefix⟩ := by
    rw [heq]
    exact parse_of_shape hshape
  refine ⟨heq, ?_, ?_, hagain⟩
  · rw [hparse]
    constructor
    · rintro ⟨n, hn, -⟩ hempty
      rw [if_pos hempty] at hn
      cases hn
    · intro hempty
      rw [if_neg hempty]
      exact ⟨_, rfl, joinSegments_split _⟩
  · intro project parser d message field
    rw [Engine.mutateNamespaces_validation_iff, hparse]
    split
    · rename_i hempty
      rw [Except.error.injEq]
      exact and_congr_right fun _ => ⟨fun hfailure => ⟨hempty, hfailure.symm⟩, fun hfailure => hfailure.2.symm⟩
    · rename_i hempty
      constructor
      · rintro ⟨-, hfailure⟩
        cases hfailure
      · rintro ⟨-, hin, -⟩
        exact absurd hin hempty

/-- an inner empty segment is accepted and accepted again, but cannot be used; a single word with a separator at its end
can be used, but is not accepted again -/
theorem Config.accepted_prefix_usable_iff_sample :
    (∃ c', ({ vendorPrefix := "Acme\\\\Isolated\\" } : Config).validate = .ok c' ∧ c'.validate = .ok c' ∧
      ¬ ∃ n, Namespace.parse c'.vendorPrefix = .ok n ∧ n.display = c'.vendorPrefix) ∧
    (∃ c', ({ vendorPrefix := "Isolated\\" } : Config).validate = .ok c' ∧ c'.validate ≠ .ok c' ∧
      ∃ n, Namespace.parse c'.vendorPrefix = .ok n ∧ n.display = c'.vendorPrefix) := by
  constructor
  · have h : ({ vendorPrefix := "Acme\\\\Isolated\\" } : Config).validate =
        .ok { vendorPrefix := "Acme\\\\Isolated" } := by decide +kernel
    obtain ⟨-, hparse, -, hagain⟩ := accepted_prefix_usable_iff h
    rw [if_pos (by decide +kernel)] at hagain
    exact ⟨_, h, hagain, fun hn => absurd (hparse.1 hn) (by decide +kernel)⟩
  · have h : ({ vendorPrefix := "Isolated\\" } : Config).validate = .ok { vendorPrefix := "Isolated" } := by
      decide +kernel
    obtain ⟨-, hparse, -, hagain⟩ := accepted_prefix_usable_iff h
    rw [if_neg (by decide +kernel)] at hagain
    refine ⟨_, h, ?_, hparse.2 (by decide +kernel)⟩
    rw [hagain]
    exact nofun

end Isolation
