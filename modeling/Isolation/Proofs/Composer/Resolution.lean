/-
Class lookup through the `psr-4` mapping of an autoload section, before and after its keys are put under the vendor
prefix. A class belongs to the longest key that its name starts with.

- `longestKey?_eq_some_iff`: with distinct keys the lookup finds the longest key in front of the name, and no other.
- `moves_of_front`: with a namespace that is moved, every key in front of one of its classes is moved.
- `newKey_injective`: keys that do not carry the prefix stay distinct.
- `resolve?_prefixNamespaces`: a moved class is found under the prefix, by its old key and at its old paths.
-/
import Isolation.Composer.Autoload
import Isolation.Proofs.Name.Whitelist
import Mathlib.Data.List.MinMax
import Mathlib.Data.List.Nodup

namespace Isolation

/-! ## Tables with distinct keys -/

namespace Entries

variable {α : Type}

theorem put_of_notMem {key : String} {value : α} {entries : List (String × α)} (h : key ∉ entries.map Prod.fst) :
    put key value entries = entries ++ [(key, value)] := by
  induction entries with
  | nil => rfl
  | cons e rest ih =>
    obtain ⟨k, v⟩ := e
    rw [List.map_cons, List.mem_cons, not_or] at h
    rw [put, if_neg (Ne.symm h.1), ih h.2, List.cons_append]

theorem foldl_put {acc entries : List (String × α)} (h : ((acc ++ entries).map Prod.fst).Nodup) :
    entries.foldl (fun acc e => put e.1 e.2 acc) acc = acc ++ entries := by
  induction entries generalizing acc with
  | nil => simp
  | cons e rest ih =>
    have hnew : e.1 ∉ acc.map Prod.fst := by
      rw [List.map_append, List.nodup_append] at h
      exact fun hmem => h.2.2 e.1 hmem e.1 (by simp) rfl
    rw [List.foldl_cons, put_of_notMem hnew, ih (by simpa using h)]
    simp

theorem ofList_of_nodup {entries : List (String × α)} (h : (entries.map Prod.fst).Nodup) : ofList entries = entries :=
  foldl_put (by simpa using h)

theorem get?_map {β : Type} (f : α → β) (key : String) (entries : List (String × α)) :
    get? key (entries.map fun e => (e.1, f e.2)) = (get? key entries).map f := by
  induction entries with
  | nil => rfl
  | cons e rest ih =>
    obtain ⟨k, v⟩ := e
    rw [List.map_cons, get?, get?, ih]
    split <;> rfl

end Entries

/-! ## Lookup -/

/-- the longest key that the name starts with -/
def longestKey? (keys : List (String × AutoloadPath)) (name : String) : Option (String × AutoloadPath) :=
  (keys.filter fun e => Text.startsWith name e.1).argmax fun e => e.1.toList.length

/-- the `psr-4` mapping, if there is one -/
def AutoloadMap.psr4? (map : AutoloadMap) : Option (List (String × AutoloadPath)) :=
  match Entries.get? "psr-4" map.strategies with
  | some (.mapping keys) => some keys
  | _ => none

/-- the `psr-4` key that a class belongs to, with its paths -/
def AutoloadMap.resolve? (map : AutoloadMap) (name : String) : Option (String × AutoloadPath) :=
  map.psr4?.bind fun keys => longestKey? keys name

/-- two texts in front of one name, equally long, are the same -/
theorem eq_of_fronts {s t name : String} (hs : s.toList <+: name.toList) (ht : t.toList <+: name.toList)
    (hlength : s.toList.length = t.toList.length) : s = t := by
  apply String.toList_inj.mp
  exact (List.prefix_of_prefix_length_le hs ht hlength.le).eq_of_length hlength

theorem longestKey?_eq_some_iff {keys : List (String × AutoloadPath)} (hnodup : (keys.map Prod.fst).Nodup)
    {name : String} {e : String × AutoloadPath} :
    longestKey? keys name = some e ↔ e ∈ keys ∧ e.1.toList <+: name.toList ∧
      ∀ d ∈ keys, d.1.toList <+: name.toList → d.1.toList.length ≤ e.1.toList.length := by
  have hfilter : ∀ d, d ∈ keys.filter (fun e => Text.startsWith name e.1) ↔ d ∈ keys ∧ d.1.toList <+: name.toList := by
    intro d
    rw [List.mem_filter, Text.startsWith_iff]
  have hsound : ∀ d, longestKey? keys name = some d → d ∈ keys ∧ d.1.toList <+: name.toList ∧
      ∀ d' ∈ keys, d'.1.toList <+: name.toList → d'.1.toList.length ≤ d.1.toList.length := by
    intro d hd
    obtain ⟨hmem, hfront⟩ := (hfilter d).1 (List.argmax_mem hd)
    refine ⟨hmem, hfront, fun d' hd' hfront' => ?_⟩
    have hin := (hfilter d').2 ⟨hd', hfront'⟩
    exact List.le_of_mem_argmax (f := fun e : String × AutoloadPath => e.1.toList.length) hin hd
  refine ⟨hsound e, fun ⟨hmem, hfront, hmax⟩ => ?_⟩
  cases hfound : longestKey? keys name with
  | none =>
    have hnil := List.argmax_eq_none.1 hfound
    exact absurd ((hfilter e).2 ⟨hmem, hfront⟩) (by simp [hnil])
  | some d =>
    obtain ⟨hdmem, hdfront, hdmax⟩ := hsound d hfound
    have hkey : d.1 = e.1 :=
      eq_of_fronts hdfront hfront (Nat.le_antisymm (hmax d hdmem hdfront) (hdmax e hmem hfront))
    rw [List.inj_on_of_nodup_map hnodup hdmem hmem hkey]

/-! ## Keys -/

/-- a row of labels, at least one, with a separator at its end -/
def IsNamespaceKey (key : String) : Prop :=
  ∃ segments, segments ≠ [] ∧ segments.all isLabel = true ∧ key = joinSegments segments ++ "\\"

/-- the key does not already start with the vendor prefix -/
def Policy.Spares (policy : Policy) (key : String) : Prop := policy.excludes (trimSeparators key) = false

instance (policy : Policy) (key : String) : Decidable (policy.Spares key) := inferInstanceAs (Decidable (_ = _))

namespace AutoloadEntry

variable {policy : Policy} {key other : String}

/-- the key of a mapping after prefixing -/
def newKey (policy : Policy) (key : String) : String := (prefixedKey? policy key).getD key

theorem prefixKeys_eq (policy : Policy) (keys : List (String × AutoloadPath)) :
    prefixKeys policy keys = Entries.ofList (keys.map fun e => (newKey policy e.1, e.2)) := rfl

theorem newKey_eq (h : IsNamespaceKey key) :
    newKey policy key = if policy.moves key then policy.vendorPrefix ++ "\\" ++ key else key := by
  obtain ⟨segments, hne, hlabels, rfl⟩ := h
  rw [newKey, prefixedKey?, trimSeparators_closed hne hlabels]
  split <;> rfl

/-- with a namespace that is moved, every key in front of one of its classes is moved -/
theorem moves_of_front (hclosed : policy.namespaces.Closed) {space : List String} {name : String}
    (hspace : space.all isLabel = true) (hname : isLabel name = true)
    (hmoves : policy.moves (joinSegments space ++ "\\") = true) (hkey : IsNamespaceKey key)
    (hfront : key.toList <+: (joinSegments (space ++ [name])).toList) : policy.moves key = true := by
  obtain ⟨segments, hne, hlabels, rfl⟩ := hkey
  have hall : (space ++ [name]).all isLabel = true := by simp [hspace, hname]
  obtain ⟨hahead, hproper⟩ := prefix_of_join hne hlabels hall hfront
  have hbelow : segments <+: space := by
    rcases List.prefix_concat_iff.1 hahead with heq | hbelow
    · exact absurd heq hproper
    · exact hbelow
  exact Policy.moves_above hclosed hspace hne hbelow hmoves

/-- a spared key that goes on where the prefix ends would carry the prefix -/
theorem not_front_of_spares (hkey : IsNamespaceKey key) (hspared : policy.Spares key) :
    ¬ (policy.vendorPrefix ++ "\\").toList <+: key.toList := by
  obtain ⟨segments, hne, hlabels, rfl⟩ := hkey
  rw [Policy.Spares, trimSeparators_closed hne hlabels] at hspared
  intro hfront
  have hlength := hfront.length_le
  have hahead : policy.vendorPrefix.toList <+: (joinSegments segments ++ "\\").toList :=
    List.IsPrefix.trans ⟨"\\".toList, by simp⟩ hfront
  have hjoin : (joinSegments segments).toList <+: (joinSegments segments ++ "\\").toList := ⟨"\\".toList, by simp⟩
  have hexcluded : policy.excludes (joinSegments segments) = true :=
    Policy.excludes_of_front (List.prefix_of_prefix_length_le hahead hjoin (by simpa using hlength))
  rw [hspared] at hexcluded
  cases hexcluded

theorem front_prefixed (policy : Policy) (s : String) :
    (policy.vendorPrefix ++ "\\").toList <+: (policy.vendorPrefix ++ "\\" ++ s).toList := ⟨s.toList, by simp⟩

theorem prefixed_front_iff {s t : String} :
    (policy.vendorPrefix ++ "\\" ++ s).toList <+: (policy.vendorPrefix ++ "\\" ++ t).toList ↔
      s.toList <+: t.toList := by
  simp only [String.toList_append, List.append_assoc, List.prefix_append_right_inj]

/-- keys that do not carry the prefix stay distinct -/
theorem newKey_injective (hkey : IsNamespaceKey key) (hother : IsNamespaceKey other)
    (hspared : policy.Spares key) (hotherSpared : policy.Spares other)
    (h : newKey policy key = newKey policy other) : key = other := by
  rw [newKey_eq hkey, newKey_eq hother] at h
  split at h
  · split at h
    · exact String.append_right_inj _ |>.1 h
    · refine absurd (front_prefixed policy key) ?_
      rw [h]
      exact not_front_of_spares hother hotherSpared
  · split at h
    · refine absurd (front_prefixed policy other) ?_
      rw [← h]
      exact not_front_of_spares hkey hspared
    · exact h

variable {keys : List (String × AutoloadPath)}

theorem newKeys_nodup (hnodup : (keys.map Prod.fst).Nodup)
    (hkeys : ∀ e ∈ keys, IsNamespaceKey e.1 ∧ policy.Spares e.1) :
    ((keys.map fun e => (newKey policy e.1, e.2)).map Prod.fst).Nodup := by
  have hmaps : (keys.map fun e => (newKey policy e.1, e.2)).map Prod.fst =
      (keys.map Prod.fst).map (newKey policy) := by simp
  rw [hmaps]
  refine List.Nodup.map_on (fun k hk l hl heq => ?_) hnodup
  obtain ⟨e, he, rfl⟩ := List.mem_map.1 hk
  obtain ⟨d, hd, rfl⟩ := List.mem_map.1 hl
  exact newKey_injective (hkeys e he).1 (hkeys d hd).1 (hkeys e he).2 (hkeys d hd).2 heq

theorem prefixKeys_eq_map (hnodup : (keys.map Prod.fst).Nodup)
    (hkeys : ∀ e ∈ keys, IsNamespaceKey e.1 ∧ policy.Spares e.1) :
    prefixKeys policy keys = keys.map fun e => (newKey policy e.1, e.2) := by
  rw [prefixKeys_eq, Entries.ofList_of_nodup (newKeys_nodup hnodup hkeys)]

/-- **Lookup under the prefix.** In a mapping of spared keys the key of a class whose namespace is moved is, after
prefixing, the key of the class under the prefix. -/
theorem longestKey?_prefixKeys (hclosed : policy.namespaces.Closed) (hnodup : (keys.map Prod.fst).Nodup)
    (hkeys : ∀ e ∈ keys, IsNamespaceKey e.1 ∧ policy.Spares e.1) {space : List String} {name : String}
    (hspace : space.all isLabel = true) (hname : isLabel name = true)
    (hmoves : policy.moves (joinSegments space ++ "\\") = true) {path : AutoloadPath}
    (hfound : longestKey? keys (joinSegments (space ++ [name])) = some (key, path)) :
    longestKey? (prefixKeys policy keys) (policy.vendorPrefix ++ "\\" ++ joinSegments (space ++ [name])) =
      some (policy.vendorPrefix ++ "\\" ++ key, path) := by
  obtain ⟨hmem, hfront, hmax⟩ := (longestKey?_eq_some_iff hnodup).1 hfound
  have hkey := hkeys _ hmem
  have hmoved := moves_of_front hclosed hspace hname hmoves hkey.1 hfront
  rw [prefixKeys_eq_map hnodup hkeys, longestKey?_eq_some_iff (newKeys_nodup hnodup hkeys)]
  refine ⟨List.mem_map.2 ⟨_, hmem, ?_⟩, prefixed_front_iff.2 hfront, ?_⟩
  · rw [newKey_eq hkey.1, if_pos hmoved]
  intro d hd hdfront
  obtain ⟨e, he, rfl⟩ := List.mem_map.1 hd
  dsimp only at hdfront ⊢
  rw [newKey_eq (hkeys e he).1] at hdfront ⊢
  split at hdfront
  · rename_i hmovese
    have hlength := hmax e he (prefixed_front_iff.1 hdfront)
    rw [if_pos hmovese]
    simpa using hlength
  · rename_i hstays
    -- a key that stays ends before the prefix does, or it would carry the prefix
    rw [if_neg hstays]
    rcases List.prefix_or_prefix_of_prefix hdfront (front_prefixed policy _) with hshort | hlong
    · exact hshort.length_le.trans (front_prefixed policy key).length_le
    · exact absurd hlong (not_front_of_spares (hkeys e he).1 (hkeys e he).2)

end AutoloadEntry

/-! ## Sections -/

namespace AutoloadMap

theorem psr4?_prefixNamespaces (policy : Policy) (map : AutoloadMap) :
    (map.prefixNamespaces policy).psr4? = map.psr4?.map (AutoloadEntry.prefixKeys policy) := by
  rw [psr4?, psr4?, prefixNamespaces, Entries.get?_map]
  cases Entries.get? "psr-4" map.strategies with
  | none => rfl
  | some entry => cases entry <;> rfl

/-- **Classes are found again.** Let the whitelist be closed over ancestors, and let the `psr-4` keys be distinct rows
of labels with a separator at the end, none of which starts with the prefix. If a class of a namespace that is moved
belongs to a key, then in the prefixed section the class under the prefix belongs to that key under the prefix, with
the same paths. -/
theorem resolve?_prefixNamespaces {policy : Policy} {map : AutoloadMap} {keys : List (String × AutoloadPath)}
    {space : List String} {name key : String} {path : AutoloadPath} (hclosed : policy.namespaces.Closed)
    (hmap : map.psr4? = some keys) (hnodup : (keys.map Prod.fst).Nodup)
    (hkeys : ∀ e ∈ keys, IsNamespaceKey e.1 ∧ policy.Spares e.1)
    (hspace : space.all isLabel = true) (hname : isLabel name = true)
    (hmoves : policy.moves (joinSegments space ++ "\\") = true)
    (hfound : map.resolve? (joinSegments (space ++ [name])) = some (key, path)) :
    (map.prefixNamespaces policy).resolve? (policy.vendorPrefix ++ "\\" ++ joinSegments (space ++ [name])) =
      some (policy.vendorPrefix ++ "\\" ++ key, path) := by
  rw [resolve?, hmap, Option.bind_some] at hfound
  rw [resolve?, psr4?_prefixNamespaces, hmap, Option.map_some, Option.bind_some]
  exact AutoloadEntry.longestKey?_prefixKeys hclosed hnodup hkeys hspace hname hmoves hfound

/-- a section with two keys above a class and one key above the prefix -/
def sampleSection : AutoloadMap :=
  ⟨[("psr-4", .mapping [("Acme\\", .single "src/"), ("Acme\\Http\\", .several ["http/", "lib/"]),
    ("Vendor\\", .single "own/")])]⟩

def samplePolicy : Policy := ⟨⟨["Acme", "Acme\\Http", "Acme\\Http\\Psr"]⟩, "Vendor\\Isolated"⟩

/-- the class `Acme\Http\Psr\Client` is found by `Acme\Http\` and, prefixed, by that key under the prefix; the key
`Vendor\`, which stands in front of the prefixed class too, is shorter -/
theorem resolve?_prefixNamespaces_sample :
    sampleSection.resolve? "Acme\\Http\\Psr\\Client" = some ("Acme\\Http\\", .several ["http/", "lib/"]) ∧
      (sampleSection.prefixNamespaces samplePolicy).resolve? "Vendor\\Isolated\\Acme\\Http\\Psr\\Client" =
        some ("Vendor\\Isolated\\Acme\\Http\\", .several ["http/", "lib/"]) := by
  have hfound : sampleSection.resolve? "Acme\\Http\\Psr\\Client" =
      some ("Acme\\Http\\", .several ["http/", "lib/"]) := by decide +kernel
  have hkeys : ∀ e ∈ [("Acme\\", AutoloadPath.single "src/"), ("Acme\\Http\\", .several ["http/", "lib/"]),
      ("Vendor\\", .single "own/")], IsNamespaceKey e.1 ∧ samplePolicy.Spares e.1 := by
    simp only [List.forall_mem_cons, List.not_mem_nil, IsEmpty.forall_iff, implies_true, and_true]
    refine ⟨⟨⟨["Acme"], ?_⟩, ?_⟩, ⟨⟨["Acme", "Http"], ?_⟩, ?_⟩, ⟨["Vendor"], ?_⟩, ?_⟩ <;> decide +kernel
  exact ⟨hfound, @resolve?_prefixNamespaces samplePolicy sampleSection _ ["Acme", "Http", "Psr"] "Client" _ _
    (by decide +kernel) rfl (by decide +kernel) hkeys (by decide +kernel) (by decide +kernel) (by decide +kernel)
    hfound⟩

end AutoloadMap

end Isolation
