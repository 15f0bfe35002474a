/-
Closing a set of names over their ancestors. An ancestor of a text is what stands in front of one of its separators, if
that is not empty. This is said of every text, also of one with empty segments or with a leading separator.

- `mem_ancestors_iff`: these are the texts that closing adds for a member.
- `closeOverAncestors_isLeast`: a closed set is the least one around its members that holds all ancestors.
- `Sorted.ext`: sets list their names in order and once, so a set is told by its members.
- `closeOverAncestors_foldl_union`: closing a union of sets is the union of the closed sets.
- `moves_ancestor`: over a closed set the decision is closed, too.
- `closeOverAncestors_closure`: all of this, and that a run may close each package or all of them at once.
-/
import Isolation.Proofs.Prefixing.Coverage

namespace Isolation

/-! ## Ancestors of a text -/

/-- the text is cut at one of its separators, and `a` is what stands in front of it -/
def IsAncestor (a text : String) : Prop := a ≠ "" ∧ ∃ rest, text = a ++ "\\" ++ rest

/-- with each text the ancestors of it -/
def AncestorClosed (texts : Set String) : Prop := ∀ text ∈ texts, ∀ a, IsAncestor a text → a ∈ texts

theorem IsAncestor.trans {a b c : String} (hab : IsAncestor a b) (hbc : IsAncestor b c) : IsAncestor a c := by
  obtain ⟨hne, rest, rfl⟩ := hab
  obtain ⟨-, back, rfl⟩ := hbc
  refine ⟨hne, rest ++ "\\" ++ back, ?_⟩
  simp [String.append_assoc]

namespace NamespaceSet

variable {set other : NamespaceSet} {x a s : String}

/-- cutting into segments and joining some of the first ones finds every place to cut -/
theorem mem_ancestors_iff : a ∈ ancestors s ↔ IsAncestor a s := by
  rw [ancestors, List.mem_filter, bne_iff_ne, and_comm]
  refine and_congr_right fun hne => ?_
  constructor
  · intro ha
    obtain ⟨k, hk, rfl⟩ := List.mem_map.1 ha
    rw [List.mem_range] at hk
    have hfront : (splitSegments s).take (k + 1) ≠ [] := by simp [splitSegments_ne_nil]
    have hback : (splitSegments s).drop (k + 1) ≠ [] := by
      intro hnil
      have hlength := List.drop_eq_nil_iff.1 hnil
      omega
    refine ⟨joinSegments ((splitSegments s).drop (k + 1)), ?_⟩
    rw [← joinSegments_append _ _ hfront hback, List.take_append_drop, joinSegments_split]
  · rintro ⟨rest, rfl⟩
    have hfront := List.length_pos_of_ne_nil (splitSegments_ne_nil a)
    have hback := List.length_pos_of_ne_nil (splitSegments_ne_nil rest)
    rw [splitSegments_append]
    refine List.mem_map.2 ⟨(splitSegments a).length - 1, ?_, ?_⟩
    · rw [List.mem_range, List.length_append]
      omega
    · rw [Nat.sub_add_cancel hfront, List.take_left, joinSegments_split]

theorem closed_iff : set.Closed ↔ AncestorClosed {x | x ∈ set.names} := by
  simp only [Closed, AncestorClosed, mem_ancestors_iff, Set.mem_ofPred_eq]

/-- a closed set holds its members and their ancestors -/
theorem mem_close : x ∈ set.closeOverAncestors.names ↔ x ∈ set.names ∨ ∃ s ∈ set.names, IsAncestor x s := by
  simp only [mem_closeOverAncestors, mem_ancestors_iff]

/-- adding ancestors once is enough, since their ancestors are among them -/
theorem ancestorClosed_close (set : NamespaceSet) : AncestorClosed {x | x ∈ set.closeOverAncestors.names} := by
  intro x hx a ha
  rw [Set.mem_ofPred_eq, mem_close] at hx ⊢
  rcases hx with hx | ⟨s, hs, hxs⟩
  · exact .inr ⟨x, hx, ha⟩
  · exact .inr ⟨s, hs, ha.trans hxs⟩

/-- **The least closed set around the members.** -/
theorem closeOverAncestors_isLeast (set : NamespaceSet) :
    IsLeast {texts : Set String | (∀ x ∈ set.names, x ∈ texts) ∧ AncestorClosed texts}
      {x | x ∈ set.closeOverAncestors.names} := by
  refine ⟨⟨fun x hx => mem_close.2 (.inl hx), ancestorClosed_close set⟩, ?_⟩
  rintro texts ⟨hmembers, hclosed⟩ x hx
  rcases mem_close.1 hx with hx | ⟨s, hs, hxs⟩
  · exact hmembers x hx
  · exact hclosed s (hmembers s hs) x hxs

theorem closeOverAncestors_mono (h : set.names ⊆ other.names) :
    set.closeOverAncestors.names ⊆ other.closeOverAncestors.names := by
  intro x hx
  rcases mem_close.1 hx with hx | ⟨s, hs, hxs⟩
  · exact mem_close.2 (.inl (h hx))
  · exact mem_close.2 (.inr ⟨s, h hs, hxs⟩)

/-! ## Sets told by their members -/

/-- the names stand in order, each once -/
def Sorted (set : NamespaceSet) : Prop := set.names.Pairwise (· < ·)

instance (set : NamespaceSet) : Decidable set.Sorted := inferInstanceAs (Decidable (List.Pairwise _ _))

theorem pairwise_insertSorted {names : List String} (h : names.Pairwise (· < ·)) :
    (insertSorted s names).Pairwise (· < ·) := by
  induction names with
  | nil => exact List.pairwise_singleton _ _
  | cons t rest ih =>
    obtain ⟨hbefore, hrest⟩ := List.pairwise_cons.1 h
    unfold insertSorted
    split
    · exact h
    · rename_i hne
      split
      · rename_i hlt
        refine List.pairwise_cons.2 ⟨List.forall_mem_cons.2 ⟨hlt, ?_⟩, h⟩
        intro u hu
        exact String.lt_trans hlt (hbefore u hu)
      · rename_i hnlt
        refine List.pairwise_cons.2 ⟨?_, ih hrest⟩
        intro u hu
        rcases mem_insertSorted.1 hu with rfl | hu
        · exact Std.lt_of_le_of_ne (String.not_lt.1 hnlt) (Ne.symm hne)
        · exact hbefore u hu

theorem Sorted.addAll (h : set.Sorted) (texts : List String) : (set.addAll texts).Sorted := by
  obtain ⟨names⟩ := set
  rw [NamespaceSet.addAll]
  induction texts generalizing names with
  | nil => exact h
  | cons t rest ih => exact ih _ (pairwise_insertSorted h)

theorem Sorted.closeOverAncestors (h : set.Sorted) : set.closeOverAncestors.Sorted := h.addAll _

theorem Sorted.foldl_union {α : Type} (h : set.Sorted) (members : α → NamespaceSet) (row : List α) :
    (row.foldl (fun set a => set.union (members a)) set).Sorted := by
  induction row generalizing set with
  | nil => exact h
  | cons a rest ih => exact ih (h.addAll _)

theorem sorted_empty : empty.Sorted := List.Pairwise.nil

theorem sorted_ofTexts (texts : List String) : (ofTexts texts).Sorted := sorted_empty.addAll texts

/-- two sets with the same members are the same -/
theorem Sorted.ext (hset : set.Sorted) (hother : other.Sorted) (h : ∀ x, x ∈ set.names ↔ x ∈ other.names) :
    set = other := by
  obtain ⟨names⟩ := set
  obtain ⟨names'⟩ := other
  congr 1
  exact List.Pairwise.eq_of_mem_iff hset hother h

theorem closeOverAncestors_closeOverAncestors (h : set.Sorted) :
    set.closeOverAncestors.closeOverAncestors = set.closeOverAncestors := by
  apply h.closeOverAncestors.closeOverAncestors.ext h.closeOverAncestors
  intro x
  rw [mem_close]
  constructor
  · rintro (hx | ⟨s, hs, hxs⟩)
    · exact hx
    · exact ancestorClosed_close set s hs x hxs
  · exact Or.inl

/-- **Closing a union is the union of the closed sets.** -/
theorem closeOverAncestors_foldl_union {α : Type} (members : α → NamespaceSet) (row : List α) :
    (row.foldl (fun set a => set.union (members a)) empty).closeOverAncestors =
      row.foldl (fun set a => set.union (members a).closeOverAncestors) empty := by
  apply (sorted_empty.foldl_union members row).closeOverAncestors.ext
    (sorted_empty.foldl_union (fun a => (members a).closeOverAncestors) row)
  intro x
  have hnone : ∀ y : String, y ∉ empty.names := fun y hy => by cases hy
  simp only [mem_close, mem_foldl_union, hnone, false_or]
  constructor
  · rintro (⟨a, ha, hx⟩ | ⟨s, ⟨a, ha, hs⟩, hxs⟩)
    · exact ⟨a, ha, .inl hx⟩
    · exact ⟨a, ha, .inr ⟨s, hs, hxs⟩⟩
  · rintro ⟨a, ha, hx | ⟨s, hs, hxs⟩⟩
    · exact .inl ⟨a, ha, hx⟩
    · exact .inr ⟨s, ⟨a, ha, hs⟩, hxs⟩

end NamespaceSet

/-! ## The decision -/

/-- over a closed set, with a namespace that is moved every ancestor of it is moved -/
theorem Policy.moves_ancestor {policy : Policy} (hclosed : AncestorClosed {x | x ∈ policy.namespaces.names})
    {segments : List String} (hlabels : segments.all isLabel = true)
    (hmoves : policy.moves (joinSegments segments ++ "\\") = true) {a : String}
    (ha : IsAncestor a (joinSegments segments)) : policy.moves (a ++ "\\") = true := by
  have hne : segments ≠ [] := by
    rintro rfl
    obtain ⟨-, rest, htext⟩ := ha
    have hchars := congrArg String.toList htext
    simp [joinSegments_toList, List.intercalate] at hchars
  obtain ⟨front, hfront, hahead, -, rfl⟩ :=
    (NamespaceSet.mem_ancestors_join hne hlabels).1 (NamespaceSet.mem_ancestors_iff.2 ha)
  exact moves_above (NamespaceSet.closed_iff.2 hclosed) hlabels hfront hahead hmoves

/-- a run finds the same namespaces if those of each package are closed before they are put together -/
theorem Engine.discoverPlan_closes_each (e : Engine) (d : Disk) (plan : List (Package × Option String)) :
    (e.discoverPlan d plan).namespaces =
      (Engine.eligible plan).foldl
        (fun set package =>
          set.union (Discovery.package d package.2 e.config.extensions e.parser).namespaces.closeOverAncestors)
        .empty := by
  rw [(e.discoverPlan_namespaces d plan).1, whitelist, gathered, Engine.trees, List.foldl_map]
  simp only [Discovery.package_namespaces]
  exact NamespaceSet.closeOverAncestors_foldl_union _ (Engine.eligible plan)

/-- **Closing over ancestors is a closure operator, and makes the decision closed.** A closed set holds the members and
their ancestors, and is the least set around the members that holds the ancestors of all that is in it. Closing it again
changes nothing, a set with more members is closed to one with more members, and sets may be closed before or after they
are put together, also those of the packages of a run. Over a closed set, with a namespace that is moved all its ancestors
are moved, whatever the vendor prefix. -/
theorem closeOverAncestors_closure :
    (∀ set : NamespaceSet,
        (∀ x, x ∈ set.closeOverAncestors.names ↔ x ∈ set.names ∨ ∃ s ∈ set.names, IsAncestor x s) ∧
        IsLeast {texts : Set String | (∀ x ∈ set.names, x ∈ texts) ∧ AncestorClosed texts}
          {x | x ∈ set.closeOverAncestors.names} ∧
        (set.Sorted → set.closeOverAncestors.closeOverAncestors = set.closeOverAncestors)) ∧
      (∀ set other : NamespaceSet, set.names ⊆ other.names →
        set.closeOverAncestors.names ⊆ other.closeOverAncestors.names) ∧
      (∀ sets : List NamespaceSet,
        (sets.foldl NamespaceSet.union .empty).closeOverAncestors =
          (sets.map NamespaceSet.closeOverAncestors).foldl NamespaceSet.union .empty) ∧
      (∀ (e : Engine) (d : Disk) (plan : List (Package × Option String)),
        (e.discoverPlan d plan).namespaces =
          (Engine.eligible plan).foldl
            (fun set package =>
              set.union (Discovery.package d package.2 e.config.extensions e.parser).namespaces.closeOverAncestors)
            .empty) ∧
      ∀ (policy : Policy) (segments : List String), AncestorClosed {x | x ∈ policy.namespaces.names} →
        segments.all isLabel = true → policy.moves (joinSegments segments ++ "\\") = true →
        ∀ a, IsAncestor a (joinSegments segments) → policy.moves (a ++ "\\") = true := by
  refine ⟨?_, ?_, ?_, ?_, ?_⟩
  · intro set
    exact ⟨fun x => NamespaceSet.mem_close, NamespaceSet.closeOverAncestors_isLeast set,
      NamespaceSet.closeOverAncestors_closeOverAncestors⟩
  · intro set other h
    exact NamespaceSet.closeOverAncestors_mono h
  · intro sets
    rw [List.foldl_map]
    exact NamespaceSet.closeOverAncestors_foldl_union id sets
  · intro e d plan
    exact e.discoverPlan_closes_each d plan
  · intro policy segments hclosed hlabels hmoves a ha
    exact Policy.moves_ancestor hclosed hlabels hmoves ha

/-- names with an empty segment and with a leading separator among them -/
def unevenNames : NamespaceSet := .ofTexts ["\\X\\Y", "A\\\\B", "Lib\\Sub\\Deep"]

/-- the set is closed at once, and over it the namespaces above one that is moved are moved -/
theorem closeOverAncestors_closure_sample :
    unevenNames.Sorted ∧
      unevenNames.closeOverAncestors.names =
        ["A", "A\\", "A\\\\B", "Lib", "Lib\\Sub", "Lib\\Sub\\Deep", "\\X", "\\X\\Y"] ∧
      unevenNames.closeOverAncestors.closeOverAncestors = unevenNames.closeOverAncestors ∧
      (⟨unevenNames.closeOverAncestors, "Acme"⟩ : Policy).moves "Lib\\Sub\\Deep\\" = true ∧
      (⟨unevenNames.closeOverAncestors, "Acme"⟩ : Policy).moves "Lib\\Sub\\" = true := by
  obtain ⟨hclosure, -, -, -, hdecision⟩ := closeOverAncestors_closure
  obtain ⟨-, hleast, hidempotent⟩ := hclosure unevenNames
  have hsorted : unevenNames.Sorted := NamespaceSet.sorted_ofTexts _
  have hmoves : (⟨unevenNames.closeOverAncestors, "Acme"⟩ : Policy).moves "Lib\\Sub\\Deep\\" = true := by decide +kernel
  refine ⟨hsorted, by decide +kernel, hidempotent hsorted, hmoves, ?_⟩
  exact hdecision ⟨unevenNames.closeOverAncestors, "Acme"⟩ ["Lib", "Sub", "Deep"] hleast.1.2 (by decide +kernel) hmoves
    "Lib\\Sub" ⟨by decide, "Deep", by decide⟩

end Isolation
