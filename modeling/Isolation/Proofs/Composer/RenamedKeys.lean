/-
Keys of a `psr-0` mapping after prefixing, as the relocation of directories reads them. Prefixing decides about a key
without the separators at its ends but keeps them in the new key; relocation reads the new key as a namespace. So a
separator in front of a key ends up in the middle of the new one, as in `Custom\Prefix\\Old`, which is no namespace.

- `splitSegments_prefixed`: the segments of a new key are those of the prefix, then those of the key with the separators
  in front of it.
- `isPrefixed_prefixedKey`: a new key is taken for prefixed exactly if the old one reads as a namespace and has no
  separator in front.
- `renamed_key_considered_iff`: the same for a section, with the directories that are looked at.
-/
import Isolation.Proofs.Json.Tidy
import Isolation.Proofs.Name.Lookalikes

namespace Isolation

theorem Relocator.isPrefixed_iff {r : Relocator} {key : String} : r.isPrefixed key = true ↔
    ∃ n, Namespace.parse key = .ok n ∧ n.startsWithIgnoringCase r.vendorPrefix = true := by
  rw [isPrefixed]
  cases Namespace.parse key <;> simp

/-! ## One key -/

namespace AutoloadEntry

variable {text key new : String} {front : Namespace} {whitelist : NamespaceSet}

theorem prefixedKey?_eq_some {policy : Policy} (h : prefixedKey? policy key = some new) :
    policy.moves (trimSeparators key ++ "\\") = true ∧ new = policy.vendorPrefix ++ "\\" ++ key := by
  rw [prefixedKey?] at h
  split at h
  · rename_i hmoves
    exact ⟨hmoves, (Option.some.inj h).symm⟩
  · cases h

/-- a key that is put under the prefix holds more than separators -/
theorem anchored_of_moves {policy : Policy} (h : policy.moves (trimSeparators key ++ "\\") = true) :
    Anchored (trimSeparators key).toList := by
  obtain ⟨-, -, -, -, -, hempty | hanchored⟩ := trimSeparators_parts key
  · rw [hempty, Policy.moves, show looksLikeNamespace ("" ++ "\\") = false by decide] at h
    cases h
  · exact hanchored

/-- the segments of a key under the prefix: only the separators behind the key are trimmed -/
theorem splitSegments_prefixed (whitelist : NamespaceSet) (hfront : Namespace.parse text = .ok front)
    {lead back : List Char} (hkey : key.toList = lead ++ (trimSeparators key).toList ++ back)
    (hback : ∀ c ∈ back, c = separator) (hanchored : Anchored (trimSeparators key).toList) :
    splitSegments (trimSeparators ((Policy.make whitelist text).vendorPrefix ++ "\\" ++ key)) =
      front.segments ++ splitSegments (String.ofList lead ++ trimSeparators key) := by
  obtain ⟨hne, hlabels, htext⟩ := Namespace.segments_of_parse hfront
  have hvendor : (Policy.make whitelist text).vendorPrefix = joinSegments front.segments := htext
  have hparts : joinSegments front.segments ++ "\\" ++ key =
      joinSegments front.segments ++ "\\" ++ (String.ofList lead ++ trimSeparators key) ++ String.ofList back := by
    apply String.toList_inj.mp
    simp [hkey]
  have hends : Anchored (joinSegments front.segments ++ "\\" ++ (String.ofList lead ++ trimSeparators key)).toList := by
    have happend := (anchored_joinLabels hne hlabels).append (separator :: lead) hanchored
    simpa [separator] using happend
  rw [hvendor, hparts, trimSeparators_of_anchored _ hends (by simpa using hback), splitSegments_append,
    splitSegments_joinLabels hne hlabels]

/-- a new key is taken for prefixed exactly if the old one reads as a namespace and has no separator in front -/
theorem isPrefixed_prefixedKey (vendorDir : String) (hfront : Namespace.parse text = .ok front)
    (hnew : prefixedKey? (Policy.make whitelist text) key = some new) :
    (Relocator.make front vendorDir).isPrefixed new = true ↔
      key.toList.head? ≠ some separator ∧ ∃ n, Namespace.parse key = .ok n := by
  obtain ⟨hmoves, rfl⟩ := prefixedKey?_eq_some hnew
  have hanchored := anchored_of_moves hmoves
  obtain ⟨lead, back, hkey, hlead, hback, -⟩ := trimSeparators_parts key
  have hsplit := splitSegments_prefixed whitelist hfront hkey hback hanchored
  have hread : (Relocator.make front vendorDir).isPrefixed ((Policy.make whitelist text).vendorPrefix ++ "\\" ++ key) =
      true ↔ (splitSegments (String.ofList lead ++ trimSeparators key)).all isLabel = true := by
    rw [Relocator.isPrefixed_iff]
    constructor
    · rintro ⟨n, hn, -⟩
      obtain ⟨hsegments, hall⟩ := Namespace.parse_eq_ok_iff.1 hn
      rw [hsegments, hsplit, List.all_append, Bool.and_eq_true] at hall
      exact hall.2
    · intro hall
      refine ⟨⟨_⟩, Namespace.parse_eq_ok_iff.2 ⟨hsplit.symm, ?_⟩, Namespace.startsWithIgnoringCase_append _ _⟩
      rw [List.all_append, (Namespace.segments_of_parse hfront).2.1, hall, Bool.and_true]
  rw [hread, Namespace.exists_parse_iff]
  cases lead with
  | nil =>
    obtain ⟨c, hc, hne⟩ := hanchored.first
    have hhead : key.toList.head? ≠ some separator := by
      rw [hkey]
      simpa [hc] using hne
    rw [String.ofList_nil, String.empty_append, and_iff_right hhead]
  | cons c lead =>
    -- the separator in front of the key makes an empty segment
    obtain rfl : c = separator := hlead c List.mem_cons_self
    have hcut : String.ofList (separator :: lead) ++ trimSeparators key =
        "" ++ "\\" ++ (String.ofList lead ++ trimSeparators key) := by
      apply String.toList_inj.mp
      simp [separator]
    have hempty : (splitSegments "").all isLabel = false := by decide
    have hhead : key.toList.head? = some separator := by simp [hkey]
    rw [hcut, splitSegments_append, List.all_append, hempty, Bool.false_and, hhead]
    simp

end AutoloadEntry

/-! ## A section -/

namespace AutoloadMap

theorem psr0?_prefixNamespaces (policy : Policy) (map : AutoloadMap) :
    (map.prefixNamespaces policy).psr0? = map.psr0?.map (AutoloadEntry.prefixKeys policy) := by
  rw [psr0?, psr0?, prefixNamespaces, Entries.get?_map]
  cases Entries.get? "psr-0" map.strategies with
  | none => rfl
  | some entry => cases entry <;> rfl

/-- **Renamed keys and moved directories.** Let the prefix read as a namespace, and let prefixing give a key of the
`psr-0` mapping of a section a new text. The relocator takes the new key for prefixed exactly if the old one reads as a
namespace and has no separator in front. The new key is in the prefixed section, and if it is taken for prefixed then all
paths under it are among those that relocation looks at. -/
theorem renamed_key_considered_iff (whitelist : NamespaceSet) (vendorDir : String) {text key new : String}
    {front : Namespace} (hfront : Namespace.parse text = .ok front) {map : AutoloadMap}
    {keys : List (String × AutoloadPath)} (hmap : map.psr0? = some keys) (hkey : key ∈ keys.map Prod.fst)
    (hnew : AutoloadEntry.prefixedKey? (Policy.make whitelist text) key = some new) :
    ((Relocator.make front vendorDir).isPrefixed new = true ↔
        key.toList.head? ≠ some separator ∧ ∃ n, Namespace.parse key = .ok n) ∧
      ∃ keys', (map.prefixNamespaces (Policy.make whitelist text)).psr0? = some keys' ∧ new ∈ keys'.map Prod.fst ∧
        ((Relocator.make front vendorDir).isPrefixed new = true → ∀ e ∈ keys', e.1 = new → ∀ path ∈ e.2.paths,
          path ∈ (Relocator.make front vendorDir).prefixedPaths (map.prefixNamespaces (Policy.make whitelist text))) := by
  refine ⟨AutoloadEntry.isPrefixed_prefixedKey vendorDir hfront hnew,
    AutoloadEntry.prefixKeys (Policy.make whitelist text) keys, ?_, ?_, ?_⟩
  · rw [psr0?_prefixNamespaces, hmap, Option.map_some]
  · obtain ⟨e, he, rfl⟩ := List.mem_map.1 hkey
    rw [AutoloadEntry.prefixKeys, Entries.mem_keys_ofList, List.map_map, List.mem_map]
    refine ⟨e, he, ?_⟩
    simp [hnew]
  · intro hprefixed e he heq path hpath
    rw [Relocator.prefixedPaths, psr0?_prefixNamespaces, hmap, Option.map_some, Option.getD_some, List.mem_flatMap]
    exact ⟨e, List.mem_filter.2 ⟨he, by rw [heq, hprefixed]⟩, hpath⟩

/-- a section with two keys, the second one with a separator in front -/
def sampleRenamed : AutoloadMap := ⟨[("psr-0", .mapping [("Lib\\", .single "lib/"), ("\\Old", .several ["old/"])])]⟩

/-- both keys are renamed: the directory of `Lib\` is looked at, and the new key of `\Old` is not taken for prefixed -/
theorem renamed_key_considered_iff_sample :
    (Relocator.make ⟨["P"]⟩ "/vendor").isPrefixed "P\\Lib\\" = true ∧
      "lib/" ∈ (Relocator.make ⟨["P"]⟩ "/vendor").prefixedPaths
        (sampleRenamed.prefixNamespaces (Policy.make ⟨["Lib", "Old"]⟩ "P")) ∧
      (Relocator.make ⟨["P"]⟩ "/vendor").isPrefixed "P\\\\Old" = false := by
  have hfront : Namespace.parse "P" = .ok ⟨["P"]⟩ := Namespace.parse_eq_ok_iff.2 (by decide +kernel)
  have hmap : sampleRenamed.psr0? = some [("Lib\\", .single "lib/"), ("\\Old", .several ["old/"])] := rfl
  have hlib : AutoloadEntry.prefixedKey? (Policy.make ⟨["Lib", "Old"]⟩ "P") "Lib\\" = some "P\\Lib\\" := by
    decide +kernel
  have hold : AutoloadEntry.prefixedKey? (Policy.make ⟨["Lib", "Old"]⟩ "P") "\\Old" = some "P\\\\Old" := by
    decide +kernel
  obtain ⟨hread, keys', hkeys', -, hpaths⟩ := renamed_key_considered_iff _ "/vendor" hfront hmap (by simp) hlib
  have hprefixed := hread.2 ⟨by decide, ⟨["Lib"]⟩, Namespace.parse_eq_ok_iff.2 (by decide +kernel)⟩
  refine ⟨hprefixed, hpaths hprefixed ("P\\Lib\\", .single "lib/") ?_ rfl "lib/" (by decide), ?_⟩
  · obtain rfl : keys' = [("P\\Lib\\", .single "lib/"), ("P\\\\Old", .several ["old/"])] :=
      Option.some.inj (hkeys'.symm.trans (by decide +kernel))
    exact List.mem_cons_self
  · rw [← Bool.not_eq_true, (renamed_key_considered_iff _ "/vendor" hfront hmap (by simp) hold).1]
    rintro ⟨hhead, -⟩
    exact hhead rfl

end AutoloadMap

end Isolation
