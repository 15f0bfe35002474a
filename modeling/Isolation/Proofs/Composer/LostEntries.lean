/-
Entries of a mapping across prefixing. A mapping is rebuilt with its new keys, and its keys are distinct: where a key is
put under the prefix and the new key is one of the mapping already, the two entries become one.

- `prefixedKey?_newKey`: no new key is put under the prefix again.
- `newKey_eq_newKey_iff`: two keys become one exactly if one of them is the other under the prefix.
- `length_prefixKeys`: one entry is lost for each such pair.
- `prefixed_entries_kept_iff`: the same for a section, with the count of its changed keys and a second prefixing.
-/
import Isolation.Proofs.Composer.RenamedKeys

namespace Isolation

namespace Entries

variable {α : Type} {entries : List (String × α)}

/-- it has one entry for each key -/
theorem length_ofList (entries : List (String × α)) :
    (ofList entries).length = (entries.map Prod.fst).toFinset.card := by
  have hkeys : ((ofList entries).map Prod.fst).toFinset = (entries.map Prod.fst).toFinset := by
    ext key
    rw [List.mem_toFinset, List.mem_toFinset, mem_keys_ofList]
  rw [← hkeys, List.toFinset_card_of_nodup (nodup_ofList entries), List.length_map]

end Entries

/-! ## One key -/

/-- the prefix of a policy that was made is empty, or its ends are no separators -/
theorem Policy.vendorPrefix_make (whitelist : NamespaceSet) (text : String) :
    (make whitelist text).vendorPrefix = "" ∨ Anchored (make whitelist text).vendorPrefix.toList := by
  obtain ⟨-, -, -, -, -, h⟩ := trimSeparators_parts text
  rw [make]
  exact h

namespace AutoloadEntry

variable {whitelist : NamespaceSet} {text key other : String} {policy : Policy} {keys : List (String × AutoloadPath)}

theorem newKey_of_none (h : prefixedKey? policy key = none) : newKey policy key = key := by
  rw [newKey, h, Option.getD_none]

theorem newKey_of_some {new : String} (h : prefixedKey? policy key = some new) : newKey policy key = new := by
  rw [newKey, h, Option.getD_some]

/-- a key stays as it is, or comes behind the prefix as it was written -/
theorem newKey_cases (policy : Policy) (key : String) :
    newKey policy key = key ∨ newKey policy key = policy.vendorPrefix ++ "\\" ++ key := by
  cases h : prefixedKey? policy key with
  | none => exact .inl (newKey_of_none h)
  | some new => exact .inr ((newKey_of_some h).trans (prefixedKey?_eq_some h).2)

/-- a key that starts with the prefix and a separator is not put under the prefix -/
theorem prefixedKey?_prefixed (hpolicy : policy = Policy.make whitelist text) (key : String) :
    prefixedKey? policy (policy.vendorPrefix ++ "\\" ++ key) = none := by
  have hstays : policy.moves (trimSeparators (policy.vendorPrefix ++ "\\" ++ key) ++ "\\") = false := by
    rcases hpolicy ▸ Policy.vendorPrefix_make whitelist text with hempty | hanchored
    · -- every name starts with the empty prefix
      apply Policy.not_moves_of_excludes
      apply Policy.excludes_of_front
      rw [hempty, String.toList_empty]
      exact List.nil_prefix
    · have hfront : (policy.vendorPrefix ++ "\\" ++ key).toList =
          [] ++ (policy.vendorPrefix.toList ++ ("\\" ++ key).toList) := by simp
      exact Policy.not_moves_trimmed hanchored hfront (by simp)
  rw [prefixedKey?, hstays]
  rfl

/-- **No new key is put under the prefix again.** -/
theorem prefixedKey?_newKey (hpolicy : policy = Policy.make whitelist text) (key : String) :
    prefixedKey? policy (newKey policy key) = none := by
  cases h : prefixedKey? policy key with
  | none => rw [newKey_of_none h, h]
  | some new =>
    obtain ⟨-, rfl⟩ := prefixedKey?_eq_some h
    rw [newKey_of_some h, prefixedKey?_prefixed hpolicy]

/-- a key has changed exactly if it was put under the prefix -/
theorem newKey_ne_iff : newKey policy key ≠ key ↔ (prefixedKey? policy key).isSome = true := by
  cases h : prefixedKey? policy key with
  | none => simp [newKey_of_none h]
  | some new =>
    obtain ⟨-, rfl⟩ := prefixedKey?_eq_some h
    have hlonger : policy.vendorPrefix ++ "\\" ++ key ≠ key := by
      intro heq
      have hlength := congrArg (fun s : String => s.toList.length) heq
      simp only [String.toList_append, List.length_append] at hlength
      have hone : "\\".toList.length = 1 := rfl
      omega
    simp [newKey_of_some h, hlonger]

/-- **Two keys become one** exactly if one of them is the other under the prefix. -/
theorem newKey_eq_newKey_iff (hpolicy : policy = Policy.make whitelist text) (hne : key ≠ other) :
    newKey policy key = newKey policy other ↔
      prefixedKey? policy key = some other ∨ prefixedKey? policy other = some key := by
  have hmerge : ∀ {k l : String}, prefixedKey? policy k = some l → newKey policy k = newKey policy l := by
    intro k l h
    have hstays := prefixedKey?_newKey hpolicy k
    rw [newKey_of_some h] at hstays
    rw [newKey_of_some h, newKey_of_none hstays]
  constructor
  · intro h
    cases hkey : prefixedKey? policy key with
    | none =>
      rw [newKey_of_none hkey] at h
      cases hother : prefixedKey? policy other with
      | none =>
        rw [newKey_of_none hother] at h
        exact absurd h hne
      | some new =>
        rw [newKey_of_some hother] at h
        rw [h]
        exact .inr rfl
    | some new =>
      rw [newKey_of_some hkey] at h
      cases hother : prefixedKey? policy other with
      | none =>
        rw [newKey_of_none hother] at h
        rw [h]
        exact .inl rfl
      | some new' =>
        rw [newKey_of_some hother, (prefixedKey?_eq_some hkey).2, (prefixedKey?_eq_some hother).2] at h
        rw [String.append_right_inj] at h
        exact absurd h hne
  · rintro (h | h)
    · exact hmerge h
    · exact (hmerge h).symm

/-! ## A mapping -/

/-- a mapping with each key in its place renamed -/
def renameKeys (policy : Policy) (keys : List (String × AutoloadPath)) : List (String × AutoloadPath) :=
  keys.map fun e => (newKey policy e.1, e.2)

/-- the key becomes another key of the mapping -/
def collides (policy : Policy) (keys : List (String × AutoloadPath)) (key : String) : Bool :=
  (prefixedKey? policy key).any fun new => (keys.map Prod.fst).contains new

/-- the keys of a mapping that become another key of it -/
def collisions (policy : Policy) (keys : List (String × AutoloadPath)) : List String :=
  (keys.map Prod.fst).filter (collides policy keys)

theorem prefixKeys_eq_ofList (policy : Policy) (keys : List (String × AutoloadPath)) :
    prefixKeys policy keys = Entries.ofList (renameKeys policy keys) := prefixKeys_eq policy keys

theorem keys_renameKeys (policy : Policy) (keys : List (String × AutoloadPath)) :
    (renameKeys policy keys).map Prod.fst = (keys.map Prod.fst).map (newKey policy) := by
  simp [renameKeys]

theorem collides_iff : collides policy keys key = true ↔
    ∃ new ∈ keys.map Prod.fst, prefixedKey? policy key = some new := by
  rw [collides]
  cases prefixedKey? policy key with
  | none => simp
  | some new => simp

/-- a key that another one becomes does not become one itself -/
theorem collides_of_prefixed (hpolicy : policy = Policy.make whitelist text) (keys : List (String × AutoloadPath))
    (h : prefixedKey? policy key = some other) : collides policy keys other = false := by
  have hstays := prefixedKey?_newKey hpolicy key
  rw [newKey_of_some h] at hstays
  rw [collides, hstays]
  rfl

/-- of distinct keys, those that become no other one have distinct new keys -/
theorem nodup_newKeys (hpolicy : policy = Policy.make whitelist text) (hkeys : (keys.map Prod.fst).Nodup) :
    (((keys.map Prod.fst).filter (!collides policy keys ·)).map (newKey policy)).Nodup := by
  have hmem : ∀ k ∈ (keys.map Prod.fst).filter (!collides policy keys ·),
      k ∈ keys.map Prod.fst ∧ ¬ collides policy keys k = true := by
    intro k hk
    simpa using List.mem_filter.1 hk
  apply List.Nodup.map_on _ (hkeys.filter _)
  intro k hk l hl h
  obtain ⟨hk, hfree⟩ := hmem k hk
  obtain ⟨hl, hfree'⟩ := hmem l hl
  by_contra hne
  rcases (newKey_eq_newKey_iff hpolicy hne).1 h with hprefixed | hprefixed
  · exact hfree (collides_iff.2 ⟨l, hl, hprefixed⟩)
  · exact hfree' (collides_iff.2 ⟨k, hk, hprefixed⟩)

/-- all new keys are new keys of those -/
theorem newKeys_toFinset (hpolicy : policy = Policy.make whitelist text) :
    ((keys.map Prod.fst).map (newKey policy)).toFinset =
      (((keys.map Prod.fst).filter (!collides policy keys ·)).map (newKey policy)).toFinset := by
  ext new
  rw [List.mem_toFinset, List.mem_toFinset, List.mem_map, List.mem_map]
  constructor
  · rintro ⟨k, hk, rfl⟩
    by_cases hcollides : collides policy keys k = true
    · -- the key that it becomes stands for it
      obtain ⟨l, hl, hprefixed⟩ := collides_iff.1 hcollides
      have hfree := collides_of_prefixed hpolicy keys hprefixed
      have hstays := prefixedKey?_newKey hpolicy k
      rw [newKey_of_some hprefixed] at hstays
      exact ⟨l, List.mem_filter.2 ⟨hl, by rw [hfree]; rfl⟩, by rw [newKey_of_some hprefixed, newKey_of_none hstays]⟩
    · exact ⟨k, List.mem_filter.2 ⟨hk, by simpa using hcollides⟩, rfl⟩
  · rintro ⟨k, hk, rfl⟩
    exact ⟨k, List.mem_of_mem_filter hk, rfl⟩

/-- **One entry is lost for each key that becomes another one.** -/
theorem length_prefixKeys (hpolicy : policy = Policy.make whitelist text) (hkeys : (keys.map Prod.fst).Nodup) :
    (prefixKeys policy keys).length + (collisions policy keys).length = keys.length := by
  have hkept : (prefixKeys policy keys).length = ((keys.map Prod.fst).filter (!collides policy keys ·)).length :=
    calc (prefixKeys policy keys).length
        = ((keys.map Prod.fst).map (newKey policy)).toFinset.card := by
          rw [prefixKeys_eq_ofList, Entries.length_ofList, keys_renameKeys]
      _ = (((keys.map Prod.fst).filter (!collides policy keys ·)).map (newKey policy)).length := by
          rw [newKeys_toFinset hpolicy, List.toFinset_card_of_nodup (nodup_newKeys hpolicy hkeys)]
      _ = _ := List.length_map _
  have hparts := List.length_eq_length_filter_add (l := keys.map Prod.fst) (collides policy keys)
  rw [List.length_map] at hparts
  rw [hkept, collisions]
  omega

/-- the keys are renamed in place exactly if none becomes another one -/
theorem prefixKeys_eq_renameKeys_iff (hpolicy : policy = Policy.make whitelist text)
    (hkeys : (keys.map Prod.fst).Nodup) :
    prefixKeys policy keys = renameKeys policy keys ↔ collisions policy keys = [] := by
  constructor
  · intro h
    have hlength := length_prefixKeys hpolicy hkeys
    rw [h, renameKeys, List.length_map] at hlength
    exact List.length_eq_zero_iff.1 (by omega)
  · intro h
    have hall : (keys.map Prod.fst).filter (!collides policy keys ·) = keys.map Prod.fst := by
      rw [List.filter_eq_self]
      intro key hkey
      simpa using List.filter_eq_nil_iff.1 h key hkey
    have hnodup := nodup_newKeys hpolicy hkeys
    rw [hall, ← keys_renameKeys] at hnodup
    rw [prefixKeys_eq_ofList, Entries.ofList_of_nodup hnodup]

theorem countPrefixed_eq (policy : Policy) (keys : List (String × AutoloadPath)) :
    countPrefixed policy keys = (keys.filter fun e => newKey policy e.1 ≠ e.1).length := by
  have hsame : ∀ e : String × AutoloadPath,
      (prefixedKey? policy e.1).isSome = decide (newKey policy e.1 ≠ e.1) := by
    intro e
    rw [Bool.eq_iff_iff, decide_eq_true_eq, newKey_ne_iff]
  rw [countPrefixed]
  simp only [hsame]

/-- every key of a prefixed mapping stays as it is -/
theorem prefixedKey?_of_mem (hpolicy : policy = Policy.make whitelist text) {e : String × AutoloadPath}
    (he : e ∈ prefixKeys policy keys) : prefixedKey? policy e.1 = none := by
  rw [prefixKeys_eq_ofList] at he
  obtain ⟨d, -, rfl⟩ := List.mem_map.1 (Entries.mem_ofList he)
  dsimp only
  exact prefixedKey?_newKey hpolicy d.1

/-- **A second prefixing changes nothing.** -/
theorem prefixKeys_prefixKeys (hpolicy : policy = Policy.make whitelist text) (keys : List (String × AutoloadPath)) :
    prefixKeys policy (prefixKeys policy keys) = prefixKeys policy keys ∧
      countPrefixed policy (prefixKeys policy keys) = 0 := by
  have hstay : ∀ e ∈ prefixKeys policy keys, prefixedKey? policy e.1 = none := fun e he =>
    prefixedKey?_of_mem hpolicy he
  have hnodup : ((prefixKeys policy keys).map Prod.fst).Nodup := by
    rw [prefixKeys_eq_ofList]
    exact Entries.nodup_ofList _
  generalize prefixKeys policy keys = after at hstay hnodup
  constructor
  · have hsame : renameKeys policy after = after := by
      have hid : ∀ e ∈ after, (newKey policy e.1, e.2) = id e := by
        intro e he
        rw [newKey_of_none (hstay e he)]
        rfl
      rw [renameKeys, List.map_congr_left hid, List.map_id]
    rw [prefixKeys_eq_ofList, hsame, Entries.ofList_of_nodup hnodup]
  · rw [countPrefixed, List.length_eq_zero_iff, List.filter_eq_nil_iff]
    intro e he
    simp [hstay e he]

/-! ## A section -/

/-- the entries of a strategy that is a mapping -/
def entries : AutoloadEntry → List (String × AutoloadPath)
  | mapping keys => keys
  | _ => []

/-- a strategy with each key of a mapping renamed in its place -/
def renamed (policy : Policy) : AutoloadEntry → AutoloadEntry
  | mapping keys => mapping (renameKeys policy keys)
  | entry => entry

/-- the keys of a strategy that prefixing changes -/
def changedKeys (policy : Policy) (entry : AutoloadEntry) : List String :=
  (entry.entries.filter fun e => newKey policy e.1 ≠ e.1).map Prod.fst

variable {entry : AutoloadEntry}

theorem prefixNamespaces_eq_renamed_iff (hpolicy : policy = Policy.make whitelist text)
    (hkeys : (entry.entries.map Prod.fst).Nodup) :
    entry.prefixNamespaces policy = entry.renamed policy ↔ collisions policy entry.entries = [] := by
  cases entry with
  | mapping keys =>
    rw [prefixNamespaces, renamed, mapping.injEq]
    exact prefixKeys_eq_renameKeys_iff hpolicy hkeys
  | paths ps => exact iff_of_true rfl rfl
  | other value => exact iff_of_true rfl rfl

theorem length_prefixNamespaces (hpolicy : policy = Policy.make whitelist text)
    (hkeys : (entry.entries.map Prod.fst).Nodup) :
    (entry.prefixNamespaces policy).entries.length + (collisions policy entry.entries).length =
      entry.entries.length := by
  cases entry with
  | mapping keys => exact length_prefixKeys hpolicy hkeys
  | paths ps => rfl
  | other value => rfl

theorem prefixCount_eq (policy : Policy) (entry : AutoloadEntry) :
    entry.prefixCount policy = (entry.changedKeys policy).length := by
  cases entry with
  | mapping keys => rw [prefixCount, countPrefixed_eq, changedKeys, entries, List.length_map]
  | paths ps => rfl
  | other value => rfl

theorem prefixNamespaces_twice (hpolicy : policy = Policy.make whitelist text) (entry : AutoloadEntry) :
    (entry.prefixNamespaces policy).prefixNamespaces policy = entry.prefixNamespaces policy ∧
      (entry.prefixNamespaces policy).prefixCount policy = 0 := by
  cases entry with
  | mapping keys =>
    obtain ⟨hsame, hcount⟩ := prefixKeys_prefixKeys hpolicy keys
    exact ⟨congrArg mapping hsame, hcount⟩
  | paths ps => exact ⟨rfl, rfl⟩
  | other value => exact ⟨rfl, rfl⟩

end AutoloadEntry

namespace AutoloadMap

open AutoloadEntry

/-- a section with each key of its mappings renamed in its place -/
def renamed (policy : Policy) (map : AutoloadMap) : AutoloadMap :=
  ⟨map.strategies.map fun e => (e.1, e.2.renamed policy)⟩

/-- **Which sections keep their entries.** Prefixing renames the keys of the mappings of a section in their places, with
their paths, exactly if no key becomes another key of its mapping; for each one that does, the mapping loses an entry.
The count is the number of keys that change, and a second prefixing changes nothing. -/
theorem prefixed_entries_kept_iff {whitelist : NamespaceSet} {text : String} {policy : Policy}
    (hpolicy : policy = Policy.make whitelist text) (map : AutoloadMap)
    (hkeys : ∀ e ∈ map.strategies, (e.2.entries.map Prod.fst).Nodup) :
    (∀ key, newKey policy key = key ∨ newKey policy key = policy.vendorPrefix ++ "\\" ++ key) ∧
      (map.prefixNamespaces policy = map.renamed policy ↔
        ∀ e ∈ map.strategies, collisions policy e.2.entries = []) ∧
      (∀ e ∈ map.strategies, (e.2.prefixNamespaces policy).entries.length +
        (collisions policy e.2.entries).length = e.2.entries.length) ∧
      map.prefixCount policy = total (map.strategies.map fun e => (e.2.changedKeys policy).length) ∧
      (map.prefixNamespaces policy).prefixNamespaces policy = map.prefixNamespaces policy ∧
      (map.prefixNamespaces policy).prefixCount policy = 0 := by
  refine ⟨newKey_cases policy, ?_, ?_, ?_, ?_, ?_⟩
  · rw [prefixNamespaces, renamed, AutoloadMap.mk.injEq, List.map_inj_left]
    apply forall₂_congr
    intro e he
    rw [Prod.mk.injEq, and_iff_right rfl, prefixNamespaces_eq_renamed_iff hpolicy (hkeys e he)]
  · intro e he
    exact length_prefixNamespaces hpolicy (hkeys e he)
  · rw [prefixCount]
    simp only [prefixCount_eq]
  · rw [prefixNamespaces, prefixNamespaces, AutoloadMap.mk.injEq, List.map_map]
    apply List.map_congr_left
    intro e he
    exact Prod.ext rfl (prefixNamespaces_twice hpolicy e.2).1
  · have hnone : ∀ strategies : List (String × AutoloadEntry),
        total (strategies.map fun e => (e.2.prefixNamespaces policy).prefixCount policy) = 0 := by
      intro strategies
      induction strategies with
      | nil => rfl
      | cons e rest ih => rw [List.map_cons, total, (prefixNamespaces_twice hpolicy e.2).2, ih]
    rw [prefixCount, prefixNamespaces, List.map_map]
    exact hnone map.strategies

/-- a mapping that holds a key and the same key under the prefix, and one that holds neither -/
def sampleCollision : AutoloadMap :=
  ⟨[("psr-4", .mapping [("Lib\\", .single "src/"), ("P\\Lib\\", .single "old/"), ("Tool\\", .single "tool/")]),
    ("psr-0", .mapping [("Lib_", .single "lib/"), ("\\Lib", .single "top/")])]⟩

/-- the first mapping loses an entry, the second one keeps its two -/
theorem prefixed_entries_kept_iff_sample :
    sampleCollision.prefixNamespaces (Policy.make ⟨["Lib"]⟩ "P") ≠ sampleCollision.renamed (Policy.make ⟨["Lib"]⟩ "P") ∧
      (sampleCollision.strategies.map fun e =>
        (e.2.prefixNamespaces (Policy.make ⟨["Lib"]⟩ "P")).entries.map Prod.fst) =
          [["P\\Lib\\", "Tool\\"], ["Lib_", "P\\\\Lib"]] ∧
      sampleCollision.prefixCount (Policy.make ⟨["Lib"]⟩ "P") = 2 := by
  obtain ⟨-, hkept, -, hcount, -⟩ := prefixed_entries_kept_iff
    (rfl : Policy.make ⟨["Lib"]⟩ "P" = Policy.make ⟨["Lib"]⟩ "P") sampleCollision (by decide +kernel)
  refine ⟨fun h => ?_, by decide +kernel, hcount.trans (by decide +kernel)⟩
  exact absurd (hkept.1 h) (by decide +kernel)

end AutoloadMap

end Isolation
