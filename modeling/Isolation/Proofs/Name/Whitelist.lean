/-
The members of a whitelist. Sets are kept sorted; what is in them is told here by membership alone.

- `mem_insertAll`, `mem_union`, `mem_foldl_union`, `mem_closeOverAncestors`: what each operation adds.
- `mem_ancestors_join`: the ancestors of a row of labels are the rows in front of it.
- `Closed.join_mem`: a closed set holds every namespace that a member lies below.
- `moves_above`: so with a namespace that is moved every namespace above it is moved.
-/
import Isolation.Proofs.Name.Decision

namespace Isolation

theorem mem_insertSorted {x s : String} {texts : List String} : x ∈ insertSorted s texts ↔ x = s ∨ x ∈ texts := by
  induction texts with
  | nil => simp [insertSorted]
  | cons t rest ih =>
    unfold insertSorted
    split
    · rename_i heq
      simp [heq]
    · split
      · rw [List.mem_cons]
      · rw [List.mem_cons, ih, List.mem_cons]
        exact or_left_comm

namespace NamespaceSet

variable {set other : NamespaceSet} {x s : String} {texts : List String}

/-! ## What an operation adds -/

theorem mem_addAll : x ∈ (set.addAll texts).names ↔ x ∈ set.names ∨ x ∈ texts := by
  obtain ⟨names⟩ := set
  rw [addAll]
  induction texts generalizing names with
  | nil => simp
  | cons t rest ih =>
    rw [List.foldl_cons, ih, mem_insertSorted, List.mem_cons, or_comm (a := x = t), or_assoc]

theorem mem_union : x ∈ (set.union other).names ↔ x ∈ set.names ∨ x ∈ other.names := mem_addAll

/-- what the sets of a whole row add -/
theorem mem_foldl_union {α : Type} {members : α → NamespaceSet} {row : List α} :
    x ∈ (row.foldl (fun set a => set.union (members a)) set).names ↔
      x ∈ set.names ∨ ∃ a ∈ row, x ∈ (members a).names := by
  induction row generalizing set with
  | nil => simp
  | cons a rest ih =>
    rw [List.foldl_cons, ih, mem_union]
    simp [or_assoc]

theorem mem_insert : x ∈ (set.insert s).names ↔ x ∈ set.names ∨ (x = trimSeparators s ∧ x ≠ "") := by
  rw [insert]
  split
  · rename_i hempty
    refine ⟨.inl, fun h => h.resolve_right ?_⟩
    rintro ⟨rfl, hne⟩
    exact hne hempty
  · rename_i hne
    rw [mem_insertSorted]
    constructor
    · rintro (rfl | hx)
      · exact .inr ⟨rfl, hne⟩
      · exact .inl hx
    · rintro (hx | ⟨rfl, -⟩)
      · exact .inr hx
      · exact .inl rfl

theorem mem_insertAll :
    x ∈ (set.insertAll texts).names ↔ x ∈ set.names ∨ ∃ s ∈ texts, x = trimSeparators s ∧ x ≠ "" := by
  rw [insertAll]
  induction texts generalizing set with
  | nil => simp
  | cons t rest ih =>
    rw [List.foldl_cons, ih, mem_insert]
    simp [or_assoc]

theorem mem_closeOverAncestors :
    x ∈ set.closeOverAncestors.names ↔ x ∈ set.names ∨ ∃ s ∈ set.names, x ∈ ancestors s := by
  rw [closeOverAncestors, mem_addAll, List.mem_flatMap]

/-! ## Ancestors -/

/-- the ancestors of a row of labels are the shorter rows in front of it -/
theorem mem_ancestors_join {segments : List String} (hne : segments ≠ []) (h : segments.all isLabel = true) :
    x ∈ ancestors (joinSegments segments) ↔
      ∃ front, front ≠ [] ∧ front <+: segments ∧ front ≠ segments ∧ x = joinSegments front := by
  rw [ancestors, splitSegments_joinLabels hne h]
  constructor
  · intro hx
    obtain ⟨hx, -⟩ := List.mem_filter.1 hx
    obtain ⟨k, hk, rfl⟩ := List.mem_map.1 hx
    have hlt : k + 1 < segments.length := by
      have := List.mem_range.1 hk
      omega
    refine ⟨segments.take (k + 1), by simp [hne], List.take_prefix _ _, fun heq => ?_, rfl⟩
    have hlength := congrArg List.length heq
    rw [List.length_take] at hlength
    omega
  · rintro ⟨front, hfront, hahead, hproper, rfl⟩
    have hlabels : front.all isLabel = true :=
      List.all_eq_true.2 fun s hs => List.all_eq_true.1 h s (hahead.subset hs)
    have hpos : 0 < front.length := List.length_pos_of_ne_nil hfront
    have hlt : front.length < segments.length := by
      refine lt_of_le_of_ne hahead.length_le fun heq => hproper (hahead.eq_of_length heq)
    refine List.mem_filter.2 ⟨List.mem_map.2 ⟨front.length - 1, List.mem_range.2 (by omega), ?_⟩, ?_⟩
    · rw [Nat.sub_add_cancel hpos, ← List.prefix_iff_eq_take.1 hahead]
    · have hsome := (anchored_joinLabels hfront hlabels).ne_nil
      rw [bne_iff_ne]
      intro hempty
      rw [hempty] at hsome
      exact hsome rfl

/-! ## Closed sets -/

/-- with each member the set holds its ancestors -/
def Closed (set : NamespaceSet) : Prop := ∀ s ∈ set.names, ∀ a ∈ ancestors s, a ∈ set.names

instance (set : NamespaceSet) : Decidable set.Closed := inferInstanceAs (Decidable (∀ _ ∈ _, ∀ _ ∈ _, _))

/-- a closed set holds the namespaces that a member lies below -/
theorem Closed.join_mem (hclosed : set.Closed) {front segments : List String} (h : segments.all isLabel = true)
    (hmem : joinSegments segments ∈ set.names) (hfront : front ≠ []) (hahead : front <+: segments) :
    joinSegments front ∈ set.names := by
  have hne : segments ≠ [] := by
    rintro rfl
    exact hfront (List.prefix_nil.1 hahead)
  by_cases heq : front = segments
  · rwa [heq]
  · exact hclosed _ hmem _ ((mem_ancestors_join hne h).2 ⟨front, hfront, hahead, heq, rfl⟩)

end NamespaceSet

/-! ## Namespaces above one that is moved -/

/-- the text of a namespace stands in front of the texts of those below it -/
theorem joinSegments_front {front segments : List String} (hne : front ≠ []) (h : front <+: segments) :
    (joinSegments front).toList <+: (joinSegments segments).toList := by
  obtain ⟨rest, rfl⟩ := h
  cases rest with
  | nil => rw [List.append_nil]
  | cons s rest =>
    rw [joinSegments_append _ _ hne (by simp), String.append_assoc, String.toList_append]
    exact List.prefix_append _ _

namespace Policy

variable {policy : Policy}

theorem excludes_longer {name longer : String} (h : name.toList <+: longer.toList)
    (hexcludes : policy.excludes name = true) : policy.excludes longer = true := by
  have hlower : name.toList.map Char.toLower <+: longer.toList.map Char.toLower := h.map _
  rw [excludes, Text.startsWith_iff, Ascii.lower, Ascii.lower, String.toList_ofList,
    String.toList_ofList] at hexcludes ⊢
  exact hexcludes.trans hlower

/-- in a closed whitelist, with a namespace that is moved every namespace above it is moved -/
theorem moves_above (hclosed : policy.namespaces.Closed) {front segments : List String}
    (h : segments.all isLabel = true) (hfront : front ≠ []) (hahead : front <+: segments)
    (hmoves : policy.moves (joinSegments segments ++ "\\") = true) :
    policy.moves (joinSegments front ++ "\\") = true := by
  have hlabels : front.all isLabel = true := List.all_eq_true.2 fun s hs => List.all_eq_true.1 h s (hahead.subset hs)
  have hne : segments ≠ [] := by
    rintro rfl
    exact hfront (List.prefix_nil.1 hahead)
  have htext := joinSegments_front hfront hahead
  obtain ⟨hascii, hspared, hmem⟩ := (moves_closed hne h).1 hmoves
  refine (moves_closed hfront hlabels).2 ⟨?_, ?_, hclosed.join_mem h hmem hfront hahead⟩
  · exact List.all_eq_true.2 fun c hc => List.all_eq_true.1 hascii c (htext.subset hc)
  · cases hexcludes : policy.excludes (joinSegments front) with
    | false => rfl
    | true =>
      rw [excludes_longer htext hexcludes] at hspared
      exact hspared

end Policy

end Isolation
