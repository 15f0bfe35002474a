/-
Records of installed packages, read from what was written of them.

A document in memory holds what its readers make: tables with distinct keys, tidied values, no field among the others.
Such a document is written and read again as itself, but for one case. A strategy is kept as it is when it is neither a
mapping nor a list of paths, and that is decided before repeated keys are dropped. An object that becomes a mapping
only by dropping them is kept the first time and read as a mapping the second time.

- `ofJson?_kept`: what a reader makes of a document.
- `ofJson?_toJson`: the written document is read as the settled one, in which such objects are mappings.
- `settled_eq_self_iff`: a document is settled exactly when it has no such object.
- `toJson_settled`: both are written alike.
- `simpler_toJson`: a document is written no deeper than it was read, and without other numbers.
-/
import Isolation.Composer.Package
import Isolation.Proofs.Json.Tidy

namespace Isolation

/-! ## Strategies -/

namespace Json

theorem texts?_array (texts : List String) : texts? (.array (texts.map .text)) = some texts := by
  have hread : (texts.map Json.text).mapM text? = some (texts.map id) := mapM_map_eq_some fun _ _ => rfl
  rwa [List.map_id] at hread

theorem texts?_eq_some {j : Json} {texts : List String} (h : j.texts? = some texts) : j = .array (texts.map .text) := by
  obtain ⟨items, hitems, hread⟩ := Option.bind_eq_some_iff.1 h
  have hj : j = .array items := by
    cases j with
    | array _ => exact congrArg Json.array (Option.some.inj hitems)
    | _ => cases hitems
  have hall := Json.mapM_eq_some_iff.1 hread
  rw [hj, Json.array.injEq]
  clear hread hitems hj h
  induction hall with
  | nil => rfl
  | @cons i t _ _ hi _ ih =>
    have hi : i = .text t := by
      cases i with
      | text _ => exact congrArg Json.text (Option.some.inj hi)
      | _ => cases hi
    rw [hi, ih, List.map_cons]

end Json

namespace AutoloadPath

theorem ofJson?_toJson (p : AutoloadPath) : ofJson? p.toJson = some p := by
  cases p with
  | single path => rfl
  | several paths => rw [toJson, ofJson?, Json.texts?_array, Option.map_some]; simp

/-- a path is written as it was read -/
theorem toJson_of_ofJson? {j : Json} {p : AutoloadPath} (h : ofJson? j = some p) : p.toJson = j := by
  have hseveral : ∀ {k : Json}, k.texts?.map several = some p → p.toJson = k := by
    intro k hk
    obtain ⟨texts, htexts, rfl⟩ := Option.map_eq_some_iff.1 hk
    exact (Json.texts?_eq_some htexts).symm
  cases j with
  | text path =>
    cases h
    rfl
  | null => exact hseveral h
  | bool b => exact hseveral h
  | number n => exact hseveral h
  | array items => exact hseveral h
  | object entries => exact hseveral h

end AutoloadPath

namespace AutoloadEntry

/-- what a reader makes of a strategy: distinct keys, and of a value that is kept a tidied one -/
def Kept : AutoloadEntry → Prop
  | mapping keys => (keys.map Prod.fst).Nodup
  | paths _ => True
  | other value => value.tidy = value ∧ value.texts? = none

/-- the strategy as it is read from what is written of it -/
def settled : AutoloadEntry → AutoloadEntry
  | mapping keys => mapping keys
  | paths ps => paths ps
  | other value => ofJson value

/-- a value that is kept, and yet reads as a mapping -/
def Disguised : AutoloadEntry → Prop
  | other value => (value.tableOf? AutoloadPath.ofJson?).isSome = true
  | _ => False

theorem ofJson_kept (j : Json) : (ofJson j).Kept := by
  rw [ofJson]
  split
  · rename_i keys hkeys
    cases j with
    | object entries =>
      obtain ⟨read, -, rfl⟩ := Option.map_eq_some_iff.1 hkeys
      exact Entries.nodup_ofList read
    | _ => cases hkeys
  · split
    · trivial
    · rename_i htexts
      exact ⟨Json.tidy_tidy j, by rw [Json.texts?_tidy, htexts]⟩

theorem readPair?_toJson (e : String × AutoloadPath) :
    Json.readPair? AutoloadPath.ofJson? (e.1, e.2.toJson) = some e := by
  rw [Json.readPair?, AutoloadPath.ofJson?_toJson]
  rfl

/-- a mapping with distinct keys is read as it was written -/
theorem tableOf?_mapping {keys : List (String × AutoloadPath)} (h : (keys.map Prod.fst).Nodup) :
    Json.tableOf? AutoloadPath.ofJson? (mapping keys).toJson = some keys := by
  have hread : (keys.map fun e => (e.1, e.2.toJson)).mapM (Json.readPair? AutoloadPath.ofJson?) = some keys := by
    rw [List.mapM_map]
    refine Json.mapM_eq_some_iff.2 ?_
    rw [List.forall₂_same]
    exact fun e _ => readPair?_toJson e
  rw [toJson, Json.tableOf?, hread, Option.map_some, Entries.ofList_of_nodup h]

/-- **What is written of a strategy is read as the settled one.** -/
theorem ofJson_toJson {entry : AutoloadEntry} (h : entry.Kept) : ofJson entry.toJson = entry.settled := by
  cases entry with
  | mapping keys => rw [ofJson, tableOf?_mapping h, settled]
  | paths ps => rw [toJson, ofJson, Json.texts?_array, settled]; rfl
  | other value => rfl

theorem ofJson_of_disguised {value : Json} {keys : List (String × AutoloadPath)}
    (h : value.tableOf? AutoloadPath.ofJson? = some keys) : ofJson value = mapping keys := by
  rw [ofJson, h]

theorem ofJson_of_not_disguised {value : Json} (hkept : (other value).Kept)
    (h : value.tableOf? AutoloadPath.ofJson? = none) : ofJson value = other value := by
  rw [ofJson, h, hkept.2, hkept.1]

theorem settled_eq_self_iff {entry : AutoloadEntry} (h : entry.Kept) : entry.settled = entry ↔ ¬ entry.Disguised := by
  cases entry with
  | mapping keys => simp [settled, Disguised]
  | paths ps => simp [settled, Disguised]
  | other value =>
    rw [settled, Disguised]
    cases hread : value.tableOf? AutoloadPath.ofJson? with
    | none => simp [ofJson_of_not_disguised h hread]
    | some keys => simp [ofJson_of_disguised hread]

/-- the keys and values of a tidied object that reads as a mapping -/
theorem toJson_of_tableOf? {value : Json} {keys : List (String × AutoloadPath)} (htidy : value.tidy = value)
    (h : value.tableOf? AutoloadPath.ofJson? = some keys) : (mapping keys).toJson = value := by
  cases value with
  | object entries =>
    obtain ⟨read, hread, rfl⟩ := Option.map_eq_some_iff.1 h
    have hall := Json.mapM_eq_some_iff.1 hread
    have hpair : ∀ {e : String × Json} {r : String × AutoloadPath},
        Json.readPair? AutoloadPath.ofJson? e = some r → (r.1, r.2.toJson) = e := by
      intro e r her
      obtain ⟨path, hpath, rfl⟩ := Option.map_eq_some_iff.1 her
      rw [AutoloadPath.toJson_of_ofJson? hpath]
    have hwritten : read.map (fun r => (r.1, r.2.toJson)) = entries := by
      clear hread h htidy
      induction hall with
      | nil => rfl
      | cons her _ ih => rw [List.map_cons, hpair her, ih]
    have hnodup : (read.map Prod.fst).Nodup := by
      rw [Json.tidy, Json.object.injEq] at htidy
      have hkeys := Entries.nodup_ofList (Json.tidyEntries entries)
      rwa [htidy, ← hwritten, List.map_map] at hkeys
    rw [Entries.ofList_of_nodup hnodup, toJson, hwritten]
  | _ => cases h

/-- the settled strategy is written like the strategy -/
theorem toJson_settled {entry : AutoloadEntry} (h : entry.Kept) : entry.settled.toJson = entry.toJson := by
  cases entry with
  | mapping keys => rfl
  | paths ps => rfl
  | other value =>
    rw [settled]
    cases hread : value.tableOf? AutoloadPath.ofJson? with
    | none => rw [ofJson_of_not_disguised h hread]
    | some keys => rw [ofJson_of_disguised hread, toJson_of_tableOf? h.1 hread, toJson]

theorem simpler_toJson (j : Json) : Json.Simpler (ofJson j).toJson j := by
  rw [ofJson]
  split
  · rename_i keys hkeys
    cases j with
    | object entries =>
      obtain ⟨read, hread, rfl⟩ := Option.map_eq_some_iff.1 hkeys
      refine .object fun w hw => ?_
      obtain ⟨r, hr, rfl⟩ := List.mem_map.1 hw
      -- each value is written as it stood in the object
      obtain ⟨e, he, her⟩ := Json.exists_of_mem_mapM hread (Entries.mem_ofList hr)
      obtain ⟨path, hpath, rfl⟩ := Option.map_eq_some_iff.1 her
      refine ⟨e, he, ?_⟩
      dsimp only
      rw [AutoloadPath.toJson_of_ofJson? hpath]
      exact .refl e.2
    | _ => cases hkeys
  · split
    · rename_i htexts
      rw [Json.texts?_eq_some htexts]
      exact .refl _
    · exact Json.simpler_tidy j

end AutoloadEntry

/-! ## Sections -/

namespace AutoloadMap

/-- the sections that a reader makes -/
def Kept (map : AutoloadMap) : Prop :=
  (map.strategies.map Prod.fst).Nodup ∧ ∀ e ∈ map.strategies, e.2.Kept

/-- every strategy settled -/
def settled (map : AutoloadMap) : AutoloadMap := ⟨map.strategies.map fun e => (e.1, e.2.settled)⟩

theorem ofJson?_kept {j : Json} {map : AutoloadMap} (h : ofJson? j = some map) : map.Kept := by
  cases j with
  | object entries =>
    cases h
    refine ⟨Entries.nodup_ofList _, fun e he => ?_⟩
    obtain ⟨e, -, rfl⟩ := List.mem_map.1 (Entries.mem_ofList he)
    exact AutoloadEntry.ofJson_kept e.2
  | array items =>
    cases h
    exact ⟨List.nodup_nil, fun e he => absurd he List.not_mem_nil⟩
  | _ => cases h

theorem ofJson?_toJson {map : AutoloadMap} (h : map.Kept) : ofJson? map.toJson = some map.settled := by
  have hread : (map.strategies.map fun e => (e.1, e.2.toJson)).map (fun e => (e.1, AutoloadEntry.ofJson e.2)) =
      map.strategies.map fun e => (e.1, e.2.settled) := by
    rw [List.map_map]
    exact List.map_congr_left fun e he => Prod.ext rfl (AutoloadEntry.ofJson_toJson (h.2 e he))
  have hnodup : ((map.strategies.map fun e => (e.1, e.2.settled)).map Prod.fst).Nodup := by
    rw [List.map_map]
    exact h.1
  rw [toJson, ofJson?, hread, Entries.ofList_of_nodup hnodup, settled]

theorem toJson_settled {map : AutoloadMap} (h : map.Kept) : map.settled.toJson = map.toJson := by
  rw [toJson, settled, toJson, List.map_map]
  exact congrArg Json.object
    (List.map_congr_left fun e he => Prod.ext rfl (AutoloadEntry.toJson_settled (h.2 e he)))

theorem settled_eq_self_iff {map : AutoloadMap} (h : map.Kept) :
    map.settled = map ↔ ∀ e ∈ map.strategies, ¬ e.2.Disguised := by
  have hmap : map.settled = map ↔ map.strategies.map (fun e => (e.1, e.2.settled)) = map.strategies.map id := by
    obtain ⟨strategies⟩ := map
    rw [settled, mk.injEq, List.map_id]
  rw [hmap, List.map_inj_left]
  refine forall₂_congr fun e he => ?_
  rw [← AutoloadEntry.settled_eq_self_iff (h.2 e he), id, Prod.ext_iff, and_iff_right rfl]

theorem simpler_toJson {j : Json} {map : AutoloadMap} (h : ofJson? j = some map) : Json.Simpler map.toJson j := by
  cases j with
  | object entries =>
    cases h
    refine .object fun w hw => ?_
    obtain ⟨s, hs, rfl⟩ := List.mem_map.1 hw
    obtain ⟨e, he, rfl⟩ := List.mem_map.1 (Entries.mem_ofList hs)
    exact ⟨e, he, AutoloadEntry.simpler_toJson e.2⟩
  | array items =>
    cases h
    exact ⟨Nat.succ_le_succ (Nat.zero_le _), fun _ hn => absurd hn List.not_mem_nil⟩
  | _ => cases h

end AutoloadMap

/-! ## Packages -/

namespace Package

variable {α β : Type}

/-- other fields that a reader makes: distinct names, none of a modelled field, tidied values -/
def KeptExtra (names : List String) (extra : List (String × Json)) : Prop :=
  (extra.map Prod.fst).Nodup ∧ ∀ e ∈ extra, e.1 ∉ names ∧ e.2.tidy = e.2

/-- each of the other fields is an entry, tidied -/
theorem mem_extraOf {names : List String} {entries : List (String × Json)} {e : String × Json}
    (h : e ∈ extraOf names entries) : ∃ f ∈ entries, f.1 ∉ names ∧ e = (f.1, f.2.tidy) := by
  have he := Entries.mem_ofList h
  rw [Json.tidyEntries_eq] at he
  obtain ⟨f, hf, rfl⟩ := List.mem_map.1 he
  exact ⟨f, (List.mem_filter.1 hf).1, by simpa using (List.mem_filter.1 hf).2, rfl⟩

theorem simpler_extraOf {names : List String} {entries : List (String × Json)} {e : String × Json}
    (h : e ∈ extraOf names entries) : ∃ f ∈ entries, Json.Simpler e.2 f.2 := by
  obtain ⟨f, hf, -, rfl⟩ := mem_extraOf h
  exact ⟨f, hf, Json.simpler_tidy f.2⟩

theorem extraOf_kept (names : List String) (entries : List (String × Json)) :
    KeptExtra names (extraOf names entries) := by
  refine ⟨Entries.nodup_ofList _, fun e he => ?_⟩
  obtain ⟨f, -, hname, rfl⟩ := mem_extraOf he
  exact ⟨hname, Json.tidy_tidy f.2⟩

theorem KeptExtra.tidyEntries {names : List String} {extra : List (String × Json)} (h : KeptExtra names extra) :
    Json.tidyEntries extra = extra := by
  rw [Json.tidyEntries_eq]
  conv_rhs => rw [← List.map_id extra]
  exact List.map_congr_left fun e he => Prod.ext rfl (h.2 e he).2

/-- behind the modelled fields the others are found as they are -/
theorem extraOf_append {names : List String} {fields extra : List (String × Json)} (hfields : ∀ e ∈ fields, e.1 ∈ names)
    (h : KeptExtra names extra) : extraOf names (fields ++ extra) = extra := by
  have hfront : fields.filter (fun e => !names.contains e.1) = [] := by
    rw [List.filter_eq_nil_iff]
    exact fun e he => by simp [hfields e he]
  have hback : extra.filter (fun e => !names.contains e.1) = extra := by
    rw [List.filter_eq_self]
    exact fun e he => by simp [(h.2 e he).1]
  rw [extraOf, List.filter_append, hfront, hback, List.nil_append, h.tidyEntries, Entries.ofList_of_nodup h.1]

theorem get?_written (key name : String) (write : α → Json) (value : Option α) :
    Entries.get? key (written name write value) = if name = key then value.map write else none := by
  cases value <;> simp [written, Entries.get?]

/-- an optional field that is written as something else than null reads back -/
theorem optional?_map {read : Json → Option β} {write : α → Json} {back : α → β} {value : Option α}
    (h : ∀ a ∈ value, write a ≠ .null ∧ read (write a) = some (back a)) :
    optional? read (value.map write) = some (value.map back) := by
  cases value with
  | none => rfl
  | some a =>
    obtain ⟨hnull, hread⟩ := h a rfl
    rw [Option.map_some, optional?, hread]
    · rfl
    · exact fun hj => hnull hj

theorem optional?_eq_some {read : Json → Option α} {field : Option Json} {a : α}
    (h : optional? read field = some (some a)) : ∃ j, field = some j ∧ j ≠ .null ∧ read j = some a := by
  rw [optional?.eq_def] at h
  split at h
  · cases h
  · cases h
  · rename_i j hj
    obtain ⟨a, ha, hsome⟩ := Option.map_eq_some_iff.1 h
    cases hsome
    exact ⟨j, rfl, hj, ha⟩

/-- the modelled fields as written -/
def fields (p : Package) : List (String × Json) :=
  [("name", .text p.name)] ++ written "autoload" AutoloadMap.toJson p.autoload ++
    written "autoload-dev" AutoloadMap.toJson p.autoloadDev ++ written "require" id p.require ++
    written "install-path" Json.text p.installPath

theorem toJson_eq (p : Package) : p.toJson = .object (p.fields ++ p.extra) := rfl

theorem keys_fields_sublist (p : Package) : (p.fields.map Prod.fst).Sublist fieldNames := by
  have hwritten : ∀ {γ : Type} (name : String) (write : γ → Json) (value : Option γ),
      ((written name write value).map Prod.fst).Sublist [name] := by
    intro γ name write value
    cases value with
    | none => exact List.nil_sublist _
    | some a => exact List.Sublist.refl _
  simp only [fields, List.map_append]
  exact ((((List.Sublist.refl ["name"]).append (hwritten _ _ _)).append (hwritten _ _ _)).append
    (hwritten _ _ _)).append (hwritten _ _ _)

/-- the packages that a reader makes -/
structure Kept (p : Package) : Prop where
  sections : ∀ map ∈ p.sections, map.Kept
  require : ∀ j ∈ p.require, j ≠ .null ∧ j.tidy = j
  extra : KeptExtra fieldNames p.extra

/-- both autoload sections settled -/
def settled (p : Package) : Package :=
  { p with autoload := p.autoload.map AutoloadMap.settled, autoloadDev := p.autoloadDev.map AutoloadMap.settled }

/-- some strategy is an object that dropping repeated keys makes a mapping -/
def Disguised (p : Package) : Prop := ∃ map ∈ p.sections, ∃ e ∈ map.strategies, e.2.Disguised

variable {p : Package}

theorem Kept.autoload (h : p.Kept) : ∀ map ∈ p.autoload, map.Kept := fun map hmap =>
  h.sections map (List.mem_append_left _ (Option.mem_toList.2 hmap))

theorem Kept.autoloadDev (h : p.Kept) : ∀ map ∈ p.autoloadDev, map.Kept := fun map hmap =>
  h.sections map (List.mem_append_right _ (Option.mem_toList.2 hmap))

/-- what a reader takes from the entries of an object -/
theorem ofJson?_eq_some {j : Json} (h : ofJson? j = some p) : ∃ entries, j = .object entries ∧
    Json.field? entries "name" = some (some (.text p.name)) ∧
    (Json.field? entries "autoload").bind (optional? AutoloadMap.ofJson?) = some p.autoload ∧
    (Json.field? entries "autoload-dev").bind (optional? AutoloadMap.ofJson?) = some p.autoloadDev ∧
    (Json.field? entries "require").bind (optional? fun j => some j.tidy) = some p.require ∧
    (Json.field? entries "install-path").bind (optional? Json.text?) = some p.installPath ∧
    p.extra = extraOf fieldNames entries := by
  cases j with
  | object entries =>
    obtain ⟨field, hfield, h⟩ := Option.bind_eq_some_iff.1 h
    obtain ⟨name, hname, h⟩ := Option.bind_eq_some_iff.1 h
    obtain ⟨fieldA, hfieldA, h⟩ := Option.bind_eq_some_iff.1 h
    obtain ⟨autoload, hautoload, h⟩ := Option.bind_eq_some_iff.1 h
    obtain ⟨fieldD, hfieldD, h⟩ := Option.bind_eq_some_iff.1 h
    obtain ⟨autoloadDev, hautoloadDev, h⟩ := Option.bind_eq_some_iff.1 h
    obtain ⟨fieldR, hfieldR, h⟩ := Option.bind_eq_some_iff.1 h
    obtain ⟨require, hrequire, h⟩ := Option.bind_eq_some_iff.1 h
    obtain ⟨fieldI, hfieldI, h⟩ := Option.bind_eq_some_iff.1 h
    obtain ⟨installPath, hinstallPath, h⟩ := Option.bind_eq_some_iff.1 h
    cases h
    obtain ⟨text, rfl, htext⟩ := Option.bind_eq_some_iff.1 hname
    have htext : text = .text name := by
      cases text with
      | text _ => exact congrArg Json.text (Option.some.inj htext)
      | _ => cases htext
    subst htext
    refine ⟨entries, rfl, hfield, ?_, ?_, ?_, ?_, rfl⟩
    · rw [hfieldA]; exact hautoload
    · rw [hfieldD]; exact hautoloadDev
    · rw [hfieldR]; exact hrequire
    · rw [hfieldI]; exact hinstallPath
  | _ => cases h

/-- a value that an optional field was read from -/
theorem exists_of_optional {read : Json → Option α} {entries : List (String × Json)} {name : String} {value : Option α}
    (h : (Json.field? entries name).bind (optional? read) = some value) {a : α} (ha : a ∈ value) :
    ∃ j, (name, j) ∈ entries ∧ j ≠ .null ∧ read j = some a := by
  obtain ⟨field, hfield, h⟩ := Option.bind_eq_some_iff.1 h
  rw [ha] at h
  obtain ⟨j, rfl, hnull, hread⟩ := optional?_eq_some h
  exact ⟨j, Json.mem_of_field? hfield, hnull, hread⟩

theorem ofJson?_kept {j : Json} (h : ofJson? j = some p) : p.Kept := by
  obtain ⟨entries, -, -, hautoload, hautoloadDev, hrequire, -, hextra⟩ := ofJson?_eq_some h
  refine ⟨fun map hmap => ?_, fun r hr => ?_, ?_⟩
  · rcases List.mem_append.1 hmap with hmap | hmap
    · obtain ⟨_, -, -, hread⟩ := exists_of_optional hautoload (Option.mem_toList.1 hmap)
      exact AutoloadMap.ofJson?_kept hread
    · obtain ⟨_, -, -, hread⟩ := exists_of_optional hautoloadDev (Option.mem_toList.1 hmap)
      exact AutoloadMap.ofJson?_kept hread
  · obtain ⟨k, -, hnull, hread⟩ := exists_of_optional hrequire hr
    rw [← Option.some.inj hread]
    exact ⟨Json.tidy_ne_null hnull, Json.tidy_tidy k⟩
  · rw [hextra]
    exact extraOf_kept _ _

theorem ofJson?_toJson (h : p.Kept) : ofJson? p.toJson = some p.settled := by
  have hkeys := p.keys_fields_sublist
  have hfields : ∀ e ∈ p.fields, e.1 ∈ fieldNames := fun e he => hkeys.subset (List.mem_map_of_mem he)
  have hnodup : ((p.fields ++ p.extra).map Prod.fst).Nodup := by
    rw [List.map_append]
    refine List.nodup_append.2 ⟨hkeys.nodup (by decide), h.extra.1, fun k hk l hl hkl => ?_⟩
    obtain ⟨e, he, rfl⟩ := List.mem_map.1 hl
    exact (h.extra.2 e he).1 (hkl ▸ hkeys.subset hk)
  have hget : ∀ name ∈ fieldNames, Json.field? (p.fields ++ p.extra) name = some (Entries.get? name p.fields) := by
    intro name hname
    have hextra : Entries.get? name p.extra = none := by
      refine Entries.get?_of_notMem fun hmem => ?_
      obtain ⟨e, he, rfl⟩ := List.mem_map.1 hmem
      exact (h.extra.2 e he).1 hname
    rw [Json.field?_of_nodup hnodup, Entries.get?_append, hextra, Option.or_none]
  have hautoload : ∀ {o : Option AutoloadMap}, (∀ map ∈ o, map.Kept) →
      optional? AutoloadMap.ofJson? (o.map AutoloadMap.toJson) = some (o.map AutoloadMap.settled) := fun ho =>
    optional?_map fun map hmap => ⟨nofun, AutoloadMap.ofJson?_toJson (ho map hmap)⟩
  have hrequire : optional? (fun j => some j.tidy) (p.require.map id) = some p.require := by
    conv_rhs => rw [← Option.map_id' (x := p.require)]
    exact optional?_map fun j hj => ⟨(h.require j hj).1, congrArg some (h.require j hj).2⟩
  have hinstall : optional? Json.text? (p.installPath.map .text) = some p.installPath := by
    conv_rhs => rw [← Option.map_id' (x := p.installPath)]
    exact optional?_map fun path _ => ⟨nofun, rfl⟩
  have hname : Entries.get? "name" p.fields = some (.text p.name) := rfl
  have hauto : Entries.get? "autoload" p.fields = p.autoload.map AutoloadMap.toJson := by
    simp [fields, Entries.get?_append, get?_written, Entries.get?]
  have hdev : Entries.get? "autoload-dev" p.fields = p.autoloadDev.map AutoloadMap.toJson := by
    simp [fields, Entries.get?_append, get?_written, Entries.get?]
  have hreq : Entries.get? "require" p.fields = p.require.map id := by
    simp [fields, Entries.get?_append, get?_written, Entries.get?]
  have hpath : Entries.get? "install-path" p.fields = p.installPath.map .text := by
    simp [fields, Entries.get?_append, get?_written, Entries.get?]
  rw [toJson_eq, ofJson?, hget "name" (by decide), hget "autoload" (by decide), hget "autoload-dev" (by decide),
    hget "require" (by decide), hget "install-path" (by decide), extraOf_append hfields h.extra, hname, hauto, hdev,
    hreq, hpath]
  simp only [Option.bind_eq_bind, Option.bind_some, hautoload h.autoload, hautoload h.autoloadDev, hrequire, hinstall]
  rfl

theorem toJson_settled (h : p.Kept) : p.settled.toJson = p.toJson := by
  have hsection : ∀ (name : String) {o : Option AutoloadMap}, (∀ map ∈ o, map.Kept) →
      written name AutoloadMap.toJson (o.map AutoloadMap.settled) = written name AutoloadMap.toJson o := by
    intro name o ho
    cases o with
    | none => rfl
    | some map => rw [Option.map_some, written, written, AutoloadMap.toJson_settled (ho map rfl)]
  rw [toJson_eq, toJson_eq, fields, fields, settled]
  dsimp only
  rw [hsection _ h.autoload, hsection _ h.autoloadDev]

theorem settled_eq_self_iff (h : p.Kept) : p.settled = p ↔ ¬ p.Disguised := by
  have hsection : ∀ {o : Option AutoloadMap}, (∀ map ∈ o, map.Kept) →
      (o.map AutoloadMap.settled = o ↔ ∀ map ∈ o, ∀ e ∈ map.strategies, ¬ e.2.Disguised) := by
    intro o ho
    cases o with
    | none => exact ⟨fun _ map hmap => (nomatch hmap), fun _ => rfl⟩
    | some map => simp [AutoloadMap.settled_eq_self_iff (ho map rfl)]
  have hfields : p.settled = p ↔
      p.autoload.map AutoloadMap.settled = p.autoload ∧ p.autoloadDev.map AutoloadMap.settled = p.autoloadDev := by
    obtain ⟨⟩ := p
    simp [settled]
  rw [hfields, hsection h.autoload, hsection h.autoloadDev, Disguised, sections]
  push Not
  rw [List.forall_mem_append]
  simp only [Option.mem_toList, Option.mem_def]

theorem simpler_toJson {j : Json} (h : ofJson? j = some p) : Json.Simpler p.toJson j := by
  obtain ⟨entries, rfl, hname, hautoload, hautoloadDev, hrequire, hinstall, hextra⟩ := ofJson?_eq_some h
  have hwritten : ∀ {γ : Type} {name : String} {read : Json → Option γ} {write : γ → Json} {value : Option γ},
      (Json.field? entries name).bind (optional? read) = some value →
      (∀ {k a}, read k = some a → Json.Simpler (write a) k) →
      ∀ e ∈ written name write value, ∃ f ∈ entries, Json.Simpler e.2 f.2 := by
    intro γ name read write value hfield hle e he
    cases value with
    | none => exact absurd he List.not_mem_nil
    | some a =>
      obtain ⟨k, hk, -, hread⟩ := exists_of_optional hfield rfl
      rw [List.mem_singleton.1 he]
      exact ⟨_, hk, hle hread⟩
  rw [toJson_eq, fields]
  refine .object ?_
  simp only [List.forall_mem_append]
  refine ⟨⟨⟨⟨⟨fun e he => ?_, hwritten hautoload AutoloadMap.simpler_toJson⟩,
    hwritten hautoloadDev AutoloadMap.simpler_toJson⟩, hwritten hrequire fun {k a} hk => ?_⟩,
    hwritten hinstall fun {k a} _ => Json.simpler_text a k⟩, fun e he => simpler_extraOf (hextra ▸ he)⟩
  · rw [List.mem_singleton.1 he]
    exact ⟨_, Json.mem_of_field? hname, .refl _⟩
  · rw [← Option.some.inj hk]
    exact Json.simpler_tidy k

end Package

/-! ## Documents -/

namespace InstalledDocument

/-- the other fields of the document -/
def extra : InstalledDocument → List (String × Json)
  | record _ extra => extra
  | bare _ => []

/-- the documents that a reader makes -/
structure Kept (document : InstalledDocument) : Prop where
  packages : ∀ p ∈ document.packages, p.Kept
  extra : Package.KeptExtra ["packages"] document.extra

/-- every package settled -/
def settled (document : InstalledDocument) : InstalledDocument :=
  document.withPackages (document.packages.map Package.settled)

def Disguised (document : InstalledDocument) : Prop := ∃ p ∈ document.packages, p.Disguised

variable {document : InstalledDocument}

theorem listOf?_eq_some {j : Json} {packages : List Package} (h : j.listOf? Package.ofJson? = some packages) :
    ∃ items, j = .array items ∧ items.mapM Package.ofJson? = some packages := by
  obtain ⟨items, hitems, hread⟩ := Option.bind_eq_some_iff.1 h
  cases j with
  | array _ => exact ⟨items, congrArg Json.array (Option.some.inj hitems), hread⟩
  | _ => cases hitems

/-- where a reader finds the packages, and what it makes of them -/
theorem ofJson?_eq_some {j : Json} (h : ofJson? j = some document) :
    (∃ entries items packages, j = .object entries ∧ Json.field? entries "packages" = some (some (.array items)) ∧
      items.mapM Package.ofJson? = some packages ∧
      document = record packages (Package.extraOf ["packages"] entries)) ∨
    (∃ items packages, j = .array items ∧ items.mapM Package.ofJson? = some packages ∧ document = bare packages) := by
  have hbare : ∀ {k : Json}, (k.listOf? Package.ofJson?).map bare = some document →
      ∃ items packages, k = .array items ∧ items.mapM Package.ofJson? = some packages ∧ document = bare packages := by
    intro k hk
    obtain ⟨packages, hpackages, rfl⟩ := Option.map_eq_some_iff.1 hk
    obtain ⟨items, rfl, hread⟩ := listOf?_eq_some hpackages
    exact ⟨items, packages, rfl, hread, rfl⟩
  cases j with
  | object entries =>
    obtain ⟨field, hfield, h⟩ := Option.bind_eq_some_iff.1 h
    obtain ⟨packages, hpackages, hdocument⟩ := Option.bind_eq_some_iff.1 h
    obtain ⟨j, rfl, hlist⟩ := Option.bind_eq_some_iff.1 hpackages
    obtain ⟨items, rfl, hread⟩ := listOf?_eq_some hlist
    exact .inl ⟨entries, items, packages, rfl, hfield, hread, (Option.some.inj hdocument).symm⟩
  | array items => exact .inr (hbare h)
  | _ => cases h

/-- **What a reader makes of a document.** -/
theorem ofJson?_kept {j : Json} (h : ofJson? j = some document) : document.Kept := by
  have hpackages : ∀ {items : List Json} {packages : List Package}, items.mapM Package.ofJson? = some packages →
      ∀ p ∈ packages, p.Kept := by
    intro items packages hread p hp
    obtain ⟨i, -, hi⟩ := Json.exists_of_mem_mapM hread hp
    exact Package.ofJson?_kept hi
  rcases ofJson?_eq_some h with ⟨entries, items, packages, -, -, hread, rfl⟩ | ⟨items, packages, -, hread, rfl⟩
  · exact ⟨hpackages hread, Package.extraOf_kept _ _⟩
  · exact ⟨hpackages hread, List.nodup_nil, fun e he => absurd he List.not_mem_nil⟩

/-- **The written document is read as the settled one.** -/
theorem ofJson?_toJson (h : document.Kept) : ofJson? document.toJson = some document.settled := by
  have hread : Json.listOf? Package.ofJson? (.array (document.packages.map Package.toJson)) =
      some (document.packages.map Package.settled) :=
    Json.mapM_map_eq_some fun p hp => Package.ofJson?_toJson (h.packages p hp)
  cases document with
  | record packages extra =>
    have hnew : "packages" ∉ extra.map Prod.fst := by
      intro hmem
      obtain ⟨e, he, hname⟩ := List.mem_map.1 hmem
      exact (h.extra.2 e he).1 (List.mem_singleton.2 hname)
    have hnodup : ((("packages", Json.array (packages.map Package.toJson)) :: extra).map Prod.fst).Nodup :=
      List.nodup_cons.2 ⟨hnew, h.extra.1⟩
    have hextra : Package.extraOf ["packages"] (("packages", .array (packages.map Package.toJson)) :: extra) = extra :=
      @Package.extraOf_append _ [("packages", _)] _ (fun e he => by simp [List.mem_singleton.1 he]) h.extra
    rw [toJson, ofJson?, Json.field?_of_nodup hnodup, Entries.get?, if_pos rfl, hextra]
    simp only [Option.bind_eq_bind, Option.bind_some]
    rw [show packages = (record packages extra).packages from rfl, hread]
    rfl
  | bare packages =>
    rw [toJson, ofJson?]
    · rw [show packages = (bare packages).packages from rfl, hread]
      rfl
    · intro entries hentries
      cases hentries

/-- the settled document is written like the document -/
theorem toJson_settled (h : document.Kept) : document.settled.toJson = document.toJson := by
  have hpackages :
      (document.packages.map Package.settled).map Package.toJson = document.packages.map Package.toJson := by
    rw [List.map_map]
    exact List.map_congr_left fun p hp => Package.toJson_settled (h.packages p hp)
  cases document with
  | record packages extra => exact congrArg (fun ps => Json.object (("packages", .array ps) :: extra)) hpackages
  | bare packages => exact congrArg Json.array hpackages

/-- **A document is settled exactly when no object in it is disguised.** -/
theorem settled_eq_self_iff (h : document.Kept) : document.settled = document ↔ ¬ document.Disguised := by
  have hpackages : document.settled = document ↔
      document.packages.map Package.settled = document.packages.map id := by
    rw [List.map_id]
    cases document <;> simp [settled, withPackages, packages]
  rw [hpackages, List.map_inj_left, Disguised]
  push Not
  exact forall₂_congr fun p hp => Package.settled_eq_self_iff (h.packages p hp)

/-- **A document is written no deeper than it was read, and without other numbers.** -/
theorem simpler_toJson {j : Json} (h : ofJson? j = some document) : Json.Simpler document.toJson j := by
  have hitems : ∀ {items : List Json} {packages : List Package}, items.mapM Package.ofJson? = some packages →
      Json.Simpler (.array (packages.map Package.toJson)) (.array items) := by
    intro items packages hread
    refine .array fun w hw => ?_
    obtain ⟨p, hp, rfl⟩ := List.mem_map.1 hw
    obtain ⟨i, hi, hpi⟩ := Json.exists_of_mem_mapM hread hp
    exact ⟨i, hi, Package.simpler_toJson hpi⟩
  rcases ofJson?_eq_some h with ⟨entries, items, packages, rfl, hfield, hread, rfl⟩ | ⟨items, packages, rfl, hread, rfl⟩
  · refine .object (List.forall_mem_cons.2 ⟨⟨_, Json.mem_of_field? hfield, hitems hread⟩, fun e he => ?_⟩)
    exact Package.simpler_extraOf he
  · exact hitems hread

end InstalledDocument

end Isolation
