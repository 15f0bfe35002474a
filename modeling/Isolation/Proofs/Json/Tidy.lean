/-
Objects with distinct keys, and readings of them.

- `nodup_ofList`, `mem_ofList`: a table has distinct keys, and its entries are among those it was made of.
- `mem_keys_ofList`: it has all the keys that it was made of.
- `tidy_tidy`: a tidied value stays as it is.
- `simpler_tidy`: a tidied value is no deeper, and has no other numbers.
- `field?_of_nodup`: where keys are distinct, a field is what is found under its name.
-/
import Isolation.Json.Shape
import Isolation.Proofs.Composer.Resolution
import Isolation.Proofs.Json.ReadBack

namespace Isolation

/-! ## Tables -/

namespace Entries

variable {α β : Type} {key : String} {value : α} {entries : List (String × α)}

theorem mem_put {e : String × α} (h : e ∈ put key value entries) : e = (key, value) ∨ e ∈ entries := by
  induction entries with
  | nil => exact .inl (List.mem_singleton.1 h)
  | cons d rest ih =>
    obtain ⟨k, v⟩ := d
    rw [put] at h
    split at h
    · rename_i hkey
      rcases List.mem_cons.1 h with rfl | h
      · exact .inl (by rw [hkey])
      · exact .inr (List.mem_cons_of_mem _ h)
    · rcases List.mem_cons.1 h with rfl | h
      · exact .inr List.mem_cons_self
      · exact (ih h).imp id (List.mem_cons_of_mem _)

theorem keys_put (key : String) (value : α) (entries : List (String × α)) :
    (put key value entries).map Prod.fst =
      if key ∈ entries.map Prod.fst then entries.map Prod.fst else entries.map Prod.fst ++ [key] := by
  induction entries with
  | nil => rfl
  | cons d rest ih =>
    obtain ⟨k, v⟩ := d
    rw [put]
    by_cases hkey : k = key
    · simp [hkey]
    · rw [if_neg hkey, List.map_cons, ih]
      have hother : key ≠ k := Ne.symm hkey
      split <;> simp_all

theorem nodup_put (h : (entries.map Prod.fst).Nodup) : ((put key value entries).map Prod.fst).Nodup := by
  rw [keys_put]
  split
  · exact h
  · rename_i hnew
    exact List.nodup_append.2 ⟨h, List.nodup_singleton key, fun k hk l hl heq => hnew (by simp_all)⟩

/-- **A table has distinct keys.** -/
theorem nodup_ofList (entries : List (String × α)) : ((ofList entries).map Prod.fst).Nodup := by
  have hfold : ∀ acc : List (String × α), (acc.map Prod.fst).Nodup →
      ((entries.foldl (fun acc e => put e.1 e.2 acc) acc).map Prod.fst).Nodup := by
    induction entries with
    | nil => exact fun acc h => h
    | cons e rest ih => exact fun acc h => ih _ (nodup_put h)
  exact hfold [] List.nodup_nil

/-- its entries are among those it was made of -/
theorem mem_ofList {e : String × α} (h : e ∈ ofList entries) : e ∈ entries := by
  have hfold : ∀ acc, e ∈ entries.foldl (fun acc e => put e.1 e.2 acc) acc → e ∈ acc ∨ e ∈ entries := by
    clear h
    induction entries with
    | nil => exact fun acc h => .inl h
    | cons d rest ih =>
      intro acc h
      rcases ih _ h with h | h
      · rcases mem_put h with rfl | h
        · exact .inr List.mem_cons_self
        · exact .inl h
      · exact .inr (List.mem_cons_of_mem d h)
  exact (hfold [] h).resolve_left List.not_mem_nil

/-- it has all the keys that it was made of -/
theorem mem_keys_ofList : key ∈ (ofList entries).map Prod.fst ↔ key ∈ entries.map Prod.fst := by
  have hput : ∀ (name : String) (value : α) (acc : List (String × α)),
      key ∈ (put name value acc).map Prod.fst ↔ key ∈ acc.map Prod.fst ∨ key = name := by
    intro name value acc
    rw [keys_put]
    split
    · rename_i hname
      rw [or_iff_left_of_imp]
      rintro rfl
      exact hname
    · rw [List.mem_append, List.mem_singleton]
  have hfold : ∀ acc : List (String × α), key ∈ (entries.foldl (fun acc e => put e.1 e.2 acc) acc).map Prod.fst ↔
      key ∈ acc.map Prod.fst ∨ key ∈ entries.map Prod.fst := by
    induction entries with
    | nil => simp
    | cons e rest ih =>
      intro acc
      rw [List.foldl_cons, ih, hput, List.map_cons, List.mem_cons, or_assoc]
  have hstart := hfold []
  rwa [List.map_nil, or_iff_right List.not_mem_nil] at hstart

/-- values are changed alike before and after -/
theorem ofList_map (f : α → β) (entries : List (String × α)) :
    ofList (entries.map fun e => (e.1, f e.2)) = (ofList entries).map fun e => (e.1, f e.2) := by
  have hput : ∀ (key : String) (value : α) (acc : List (String × α)),
      put key (f value) (acc.map fun e => (e.1, f e.2)) = (put key value acc).map fun e => (e.1, f e.2) := by
    intro key value acc
    induction acc with
    | nil => rfl
    | cons d rest ih =>
      rw [List.map_cons, put, put, ih]
      split <;> rfl
  have hfold : ∀ acc : List (String × α),
      (entries.map fun e => (e.1, f e.2)).foldl (fun acc e => put e.1 e.2 acc) (acc.map fun e => (e.1, f e.2)) =
        (entries.foldl (fun acc e => put e.1 e.2 acc) acc).map fun e => (e.1, f e.2) := by
    induction entries with
    | nil => exact fun acc => rfl
    | cons e rest ih => exact fun acc => by rw [List.map_cons, List.foldl_cons, hput, ih, List.foldl_cons]
  exact hfold []

theorem get?_append (key : String) (a b : List (String × α)) : get? key (a ++ b) = (get? key a).or (get? key b) := by
  induction a with
  | nil => rfl
  | cons e rest ih =>
    rw [List.cons_append, get?, get?, ih]
    split <;> rfl

theorem get?_of_notMem (h : key ∉ entries.map Prod.fst) : get? key entries = none := by
  induction entries with
  | nil => rfl
  | cons e rest ih =>
    rw [List.map_cons, List.mem_cons, not_or] at h
    rw [get?, if_neg (Ne.symm h.1), ih h.2]

theorem get?_put (key name : String) (value : α) (entries : List (String × α)) :
    get? name (put key value entries) = if key = name then some value else get? name entries := by
  induction entries with
  | nil => rfl
  | cons e rest ih =>
    rw [put]
    by_cases hkey : e.1 = key
    · rw [if_pos hkey, get?, get?, hkey]
      split <;> rfl
    · rw [if_neg hkey, get?, get?, ih]
      by_cases hname : e.1 = name
      · rw [if_pos hname, if_pos hname, if_neg fun heq => hkey (hname.trans heq.symm)]
      · rw [if_neg hname, if_neg hname]

/-- leaving out other keys does not change what is found under a name -/
theorem get?_ofList_filter {name : String} {p : String × α → Bool} (h : ∀ e ∈ entries, e.1 = name → p e = true) :
    get? name (ofList (entries.filter p)) = get? name (ofList entries) := by
  have hfold : ∀ acc acc' : List (String × α), get? name acc = get? name acc' →
      get? name ((entries.filter p).foldl (fun acc e => put e.1 e.2 acc) acc) =
        get? name (entries.foldl (fun acc e => put e.1 e.2 acc) acc') := by
    induction entries with
    | nil => exact fun acc acc' hacc => hacc
    | cons e rest ih =>
      intro acc acc' hacc
      rw [List.forall_mem_cons] at h
      rw [List.foldl_cons]
      by_cases hp : p e = true
      · rw [List.filter_cons_of_pos hp, List.foldl_cons]
        exact ih h.2 _ _ (by rw [get?_put, get?_put, hacc])
      · rw [List.filter_cons_of_neg hp]
        exact ih h.2 _ _ (by rw [get?_put, if_neg fun heq => hp (h.1 heq), hacc])
  exact hfold [] [] rfl

end Entries

namespace Json

/-! ## Tidied values -/

theorem tidyItems_eq (items : List Json) : tidyItems items = items.map tidy := by
  induction items with
  | nil => rfl
  | cons j rest ih => rw [tidyItems, ih, List.map_cons]

theorem tidyEntries_eq (entries : List (String × Json)) :
    tidyEntries entries = entries.map fun e => (e.1, e.2.tidy) := by
  induction entries with
  | nil => rfl
  | cons e rest ih => rw [tidyEntries, ih, List.map_cons]

/-- the entries of a tidied object stay as they are if the tidied entries do -/
theorem ofList_tidy {entries : List (String × Json)} (h : tidyEntries (tidyEntries entries) = tidyEntries entries) :
    Entries.ofList (tidyEntries (Entries.ofList (tidyEntries entries))) = Entries.ofList (tidyEntries entries) := by
  have hmoved : tidyEntries (Entries.ofList (tidyEntries entries)) = Entries.ofList (tidyEntries entries) := by
    rw [tidyEntries_eq (Entries.ofList _), ← Entries.ofList_map, ← tidyEntries_eq, h]
  rw [hmoved, Entries.ofList_of_nodup (Entries.nodup_ofList _)]

mutual

/-- **A tidied value stays as it is.** -/
theorem tidy_tidy : (j : Json) → j.tidy.tidy = j.tidy
  | .null => rfl
  | .bool _ => rfl
  | .number _ => rfl
  | .text _ => rfl
  | .array items => by rw [tidy, tidy, tidyItems_tidy items]
  | .object entries => by rw [tidy, tidy, ofList_tidy (tidyEntries_tidy entries)]

theorem tidyItems_tidy : (items : List Json) → tidyItems (tidyItems items) = tidyItems items
  | [] => rfl
  | j :: rest => by rw [tidyItems, tidyItems, tidy_tidy j, tidyItems_tidy rest]

theorem tidyEntries_tidy : (entries : List (String × Json)) → tidyEntries (tidyEntries entries) = tidyEntries entries
  | [] => rfl
  | (k, j) :: rest => by rw [tidyEntries, tidyEntries, tidy_tidy j, tidyEntries_tidy rest]

end

/-! ## Simpler values -/

/-- `j` is no deeper than `k`, and has no other numbers; so it reads back where `k` does -/
structure Simpler (j k : Json) : Prop where
  depth : j.depth ≤ k.depth
  numbers : ∀ n ∈ j.numbers, n ∈ k.numbers

theorem Simpler.refl (j : Json) : Simpler j j := ⟨Nat.le_refl _, fun _ hn => hn⟩

theorem Simpler.trans {i j k : Json} (h : Simpler i j) (h' : Simpler j k) : Simpler i k :=
  ⟨Nat.le_trans h.depth h'.depth, fun n hn => h'.numbers n (h.numbers n hn)⟩

theorem simpler_text (s : String) (k : Json) : Simpler (.text s) k :=
  ⟨Nat.zero_le _, fun _ hn => absurd hn List.not_mem_nil⟩

theorem mem_numbersOfItems {items : List Json} {n : Number} :
    n ∈ numbersOfItems items ↔ ∃ j ∈ items, n ∈ j.numbers := by
  induction items with
  | nil => simp [numbersOfItems]
  | cons j rest ih => simp [numbersOfItems, ih]

theorem mem_numbersOfEntries {entries : List (String × Json)} {n : Number} :
    n ∈ numbersOfEntries entries ↔ ∃ e ∈ entries, n ∈ e.2.numbers := by
  induction entries with
  | nil => simp [numbersOfEntries]
  | cons e rest ih =>
    rw [numbersOfEntries, List.mem_append, ih, List.exists_mem_cons_iff]

theorem Simpler.array {items items' : List Json} (h : ∀ i ∈ items, ∃ j ∈ items', Simpler i j) :
    Simpler (.array items) (.array items') := by
  refine ⟨?_, fun n hn => ?_⟩
  · rw [Json.depth, Json.depth]
    refine Nat.succ_le_succ (depthOfItems_le_iff.2 fun i hi => ?_)
    obtain ⟨j, hj, hij⟩ := h i hi
    exact Nat.le_trans hij.depth (depthOfItems_le_iff.1 (Nat.le_refl _) j hj)
  · obtain ⟨i, hi, hn⟩ := mem_numbersOfItems.1 hn
    obtain ⟨j, hj, hij⟩ := h i hi
    exact mem_numbersOfItems.2 ⟨j, hj, hij.numbers n hn⟩

theorem Simpler.object {entries entries' : List (String × Json)} (h : ∀ e ∈ entries, ∃ f ∈ entries', Simpler e.2 f.2) :
    Simpler (.object entries) (.object entries') := by
  refine ⟨?_, fun n hn => ?_⟩
  · rw [Json.depth, Json.depth]
    refine Nat.succ_le_succ (depthOfEntries_le_iff.2 fun e he => ?_)
    obtain ⟨f, hf, hef⟩ := h e he
    exact Nat.le_trans hef.depth (depthOfEntries_le_iff.1 (Nat.le_refl _) f hf)
  · obtain ⟨e, he, hn⟩ := mem_numbersOfEntries.1 hn
    obtain ⟨f, hf, hef⟩ := h e he
    exact mem_numbersOfEntries.2 ⟨f, hf, hef.numbers n hn⟩

mutual

/-- **A tidied value is no deeper, and has no other numbers.** -/
theorem simpler_tidy : (j : Json) → Simpler j.tidy j
  | .null => .refl _
  | .bool _ => .refl _
  | .number _ => .refl _
  | .text _ => .refl _
  | .array items => .array (simpler_tidyItems items)
  | .object entries => .object fun e he => simpler_tidyEntries entries e (Entries.mem_ofList he)

theorem simpler_tidyItems : (items : List Json) → ∀ i ∈ tidyItems items, ∃ j ∈ items, Simpler i j
  | [] => fun _ hi => absurd hi List.not_mem_nil
  | j :: rest => fun i hi => by
    rcases List.mem_cons.1 hi with rfl | hi
    · exact ⟨j, List.mem_cons_self, simpler_tidy j⟩
    · obtain ⟨k, hk, hik⟩ := simpler_tidyItems rest i hi
      exact ⟨k, List.mem_cons_of_mem j hk, hik⟩

theorem simpler_tidyEntries : (entries : List (String × Json)) →
    ∀ e ∈ tidyEntries entries, ∃ f ∈ entries, Simpler e.2 f.2
  | [] => fun _ he => absurd he List.not_mem_nil
  | (k, j) :: rest => fun e he => by
    rcases List.mem_cons.1 he with rfl | he
    · exact ⟨(k, j), List.mem_cons_self, simpler_tidy j⟩
    · obtain ⟨f, hf, hef⟩ := simpler_tidyEntries rest e he
      exact ⟨f, List.mem_cons_of_mem _ hf, hef⟩

end

/-! ## Readings -/

theorem tidy_ne_null {j : Json} (h : j ≠ .null) : j.tidy ≠ .null := by
  cases j with
  | null => exact absurd rfl h
  | _ => exact nofun

theorem text?_tidy (j : Json) : j.tidy.text? = j.text? := by
  cases j <;> simp [tidy, text?]

/-- a list of texts is one before and after -/
theorem texts?_tidy (j : Json) : j.tidy.texts? = j.texts? := by
  cases j with
  | array items =>
    rw [tidy, tidyItems_eq]
    simp only [texts?, listOf?, items?, Option.bind_some, List.mapM_map]
    congr 1
    funext i
    exact text?_tidy i
  | _ => rfl

variable {α β : Type}

/-- values read back one by one -/
theorem mapM_map_eq_some {read : Json → Option β} {write : α → Json} {back : α → β} {as : List α}
    (h : ∀ a ∈ as, read (write a) = some (back a)) : (as.map write).mapM read = some (as.map back) := by
  induction as with
  | nil => rfl
  | cons a as ih =>
    rw [List.forall_mem_cons] at h
    rw [List.map_cons, List.mapM_cons, h.1, ih h.2]
    rfl

theorem mapM_eq_some_iff {read : α → Option β} {as : List α} {bs : List β} :
    as.mapM read = some bs ↔ List.Forall₂ (fun a b => read a = some b) as bs := by
  induction as generalizing bs with
  | nil =>
    rw [List.mapM_nil, List.forall₂_nil_left_iff]
    exact ⟨fun h => (Option.some.inj h).symm, fun h => by rw [h]; rfl⟩
  | cons a as ih =>
    rw [List.mapM_cons, List.forall₂_cons_left_iff]
    constructor
    · intro h
      obtain ⟨b, hb, h⟩ := Option.bind_eq_some_iff.1 h
      obtain ⟨bs', hbs, h⟩ := Option.bind_eq_some_iff.1 h
      exact ⟨b, bs', hb, ih.1 hbs, (Option.some.inj h).symm⟩
    · rintro ⟨b, bs', hb, hbs, rfl⟩
      rw [hb, ih.2 hbs]
      rfl

theorem exists_of_mem_right {R : α → β → Prop} {as : List α} {bs : List β} (h : List.Forall₂ R as bs) {b : β}
    (hb : b ∈ bs) : ∃ a ∈ as, R a b := by
  induction h with
  | nil => exact absurd hb List.not_mem_nil
  | cons hab _ ih =>
    rcases List.mem_cons.1 hb with rfl | hb
    · exact ⟨_, List.mem_cons_self, hab⟩
    · obtain ⟨a, ha, hab⟩ := ih hb
      exact ⟨a, List.mem_cons_of_mem _ ha, hab⟩

theorem exists_of_mem_mapM {read : α → Option β} {as : List α} {bs : List β} (h : as.mapM read = some bs) {b : β}
    (hb : b ∈ bs) : ∃ a ∈ as, read a = some b :=
  exists_of_mem_right (mapM_eq_some_iff.1 h) hb

theorem mem_of_field? {entries : List (String × Json)} {name : String} {j : Json}
    (h : field? entries name = some (some j)) : (name, j) ∈ entries := by
  have hvalues : valuesOf name entries = [j] := by
    rw [field?] at h
    split at h
    · cases h
    · rename_i j' hv
      rw [hv, Option.some.inj (Option.some.inj h)]
    · cases h
  have hj : j ∈ valuesOf name entries := by rw [hvalues]; exact List.mem_singleton_self j
  obtain ⟨e, he, rfl⟩ := List.mem_map.1 hj
  obtain ⟨he, hname⟩ := List.mem_filter.1 he
  rwa [← eq_of_beq hname]

/-- where keys are distinct, a field is what is found under its name -/
theorem field?_of_nodup {entries : List (String × Json)} (h : (entries.map Prod.fst).Nodup) (name : String) :
    field? entries name = some (Entries.get? name entries) := by
  have hvalues : valuesOf name entries = (Entries.get? name entries).toList := by
    induction entries with
    | nil => rfl
    | cons e rest ih =>
      rw [List.map_cons, List.nodup_cons] at h
      obtain ⟨k, j⟩ := e
      rw [Entries.get?]
      by_cases hk : k = name
      · subst hk
        have hrest : valuesOf k rest = [] := by
          rw [ih h.2, Entries.get?_of_notMem h.1]
          rfl
        simpa [valuesOf] using hrest
      · rw [if_neg hk, ← ih h.2]
        simp [valuesOf, hk]
  rw [field?, hvalues]
  cases Entries.get? name entries <;> rfl

end Json

end Isolation
