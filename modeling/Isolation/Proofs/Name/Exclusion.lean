/-
Names that carry the vendor prefix are never moved again. `Policy.Labelled` says that the prefix is a row of labels.

- `not_moves_of_front`: no text that starts with the prefix, leading separators aside, is moved.
- `prefixSegments_prefixed`: segments that start with those of the prefix are left alone, whatever the whitelist.
- `joinSegments_prefixed`: prefixed segments spell the prefix, a separator and what the segments spelled.
-/
import Isolation.Proofs.Name.Joining

namespace Isolation.Policy

/-- the vendor prefix is a row of labels, at least one -/
def Labelled (policy : Policy) : Prop := (splitSegments policy.vendorPrefix).all isLabel = true

instance (policy : Policy) : Decidable policy.Labelled := inferInstanceAs (Decidable (_ = _))

theorem Labelled.anchored {policy : Policy} (h : policy.Labelled) : Anchored policy.vendorPrefix.toList := by
  rw [← joinSegments_split policy.vendorPrefix]
  exact anchored_joinLabels (splitSegments_ne_nil _) h

/-! ## Excluded texts -/

theorem excludes_of_front {policy : Policy} {name : String} (h : policy.vendorPrefix.toList <+: name.toList) :
    policy.excludes name = true := by
  have hlower : (policy.vendorPrefix.toList.map Char.toLower) <+: (name.toList.map Char.toLower) := h.map _
  simpa [excludes, Text.startsWith, Ascii.lower] using hlower

theorem not_moves_of_excludes {policy : Policy} {candidate : String}
    (h : policy.excludes (trimSeparators candidate) = true) : policy.moves candidate = false := by
  simp [moves, h]

/-- no text that starts with the prefix, leading separators aside, is moved -/
theorem not_moves_of_front {policy : Policy} (hp : Anchored policy.vendorPrefix.toList) {s : String}
    {seps back : List Char} (hs : s.toList = seps ++ (policy.vendorPrefix.toList ++ back))
    (hseps : ∀ c ∈ seps, c = separator) : policy.moves s = false := by
  obtain ⟨tail, ht⟩ := trimSeparators_front hs hseps hp
  exact not_moves_of_excludes (excludes_of_front ⟨tail, ht.symm⟩)

/-- the same of a text that was trimmed and got a separator at its end -/
theorem not_moves_trimmed {policy : Policy} (hp : Anchored policy.vendorPrefix.toList) {s : String}
    {seps back : List Char} (hs : s.toList = seps ++ (policy.vendorPrefix.toList ++ back))
    (hseps : ∀ c ∈ seps, c = separator) : policy.moves (trimSeparators s ++ "\\") = false := by
  obtain ⟨tail, ht⟩ := trimSeparators_front hs hseps hp
  have hclosed : (trimSeparators s ++ "\\").toList = [] ++ (policy.vendorPrefix.toList ++ (tail ++ ['\\'])) := by
    simp [ht]
  exact not_moves_of_front hp hclosed (by simp)

/-! ## Prefixed segments -/

theorem prefixSegments_nil (policy : Policy) : policy.prefixSegments [] = none := by simp [prefixSegments]

theorem prefixSegments_eq_some {policy : Policy} {segments moved : List String}
    (h : policy.prefixSegments segments = some moved) :
    segments ≠ [] ∧ moved = splitSegments policy.vendorPrefix ++ segments := by
  unfold prefixSegments at h
  split at h
  · cases h
  · rename_i hne
    split at h
    · exact ⟨by simpa using hne, (Option.some.inj h).symm⟩
    · cases h

theorem joinSegments_prefixed (policy : Policy) {segments : List String} (hne : segments ≠ []) :
    joinSegments (splitSegments policy.vendorPrefix ++ segments) =
      policy.vendorPrefix ++ "\\" ++ joinSegments segments := by
  rw [joinSegments_append _ _ (splitSegments_ne_nil _) hne, joinSegments_split]

/-- segments under the prefix are left alone -/
theorem prefixSegments_prefixed {policy : Policy} (hp : policy.Labelled) (segments : List String) :
    policy.prefixSegments (splitSegments policy.vendorPrefix ++ segments) = none := by
  have hfront : ∃ back, (joinSegments (splitSegments policy.vendorPrefix ++ segments)).toList =
      [] ++ (policy.vendorPrefix.toList ++ back) := by
    cases segments with
    | nil => exact ⟨[], by simp [joinSegments_split]⟩
    | cons s rest =>
      refine ⟨'\\' :: (joinSegments (s :: rest)).toList, ?_⟩
      rw [joinSegments_prefixed policy (by simp)]
      simp
  obtain ⟨back, hback⟩ := hfront
  have hmoves := not_moves_trimmed hp.anchored hback (by simp)
  simp [prefixSegments, hmoves, splitSegments_ne_nil]

end Isolation.Policy
