/-
The record of installed packages on disk: written, and read again.

- `parse?_render`: the text of a document is read as the settled document.
- `not_disguised_of_tidy`: where no object repeats a key, the document is settled already.
- `readInstalled_of_persist`: after a project was written, its record is read as the settled one.
- `reopened`: a project that was opened and written is opened again, and then there is nothing to write.
-/
import Isolation.Proofs.Composer.Records
import Isolation.Proofs.Disk.Location
import Isolation.Proofs.Disk.Writing

namespace Isolation

/-! ## Values without repeated keys -/

namespace Json

theorem tidy_of_mem_object {entries : List (String × Json)} (h : (object entries).tidy = object entries) :
    ∀ e ∈ entries, e.2.tidy = e.2 := by
  intro e he
  rw [tidy, object.injEq] at h
  rw [← h] at he
  have he := Entries.mem_ofList he
  rw [tidyEntries_eq] at he
  obtain ⟨f, -, rfl⟩ := List.mem_map.1 he
  exact tidy_tidy f.2

theorem tidy_of_mem_array {items : List Json} (h : (array items).tidy = array items) : ∀ j ∈ items, j.tidy = j := by
  intro j hj
  rw [tidy, array.injEq, tidyItems_eq] at h
  rw [← h] at hj
  obtain ⟨k, -, rfl⟩ := List.mem_map.1 hj
  exact tidy_tidy k

end Json

theorem AutoloadEntry.not_disguised_of_tidy {j : Json} (h : j.tidy = j) : ¬ (AutoloadEntry.ofJson j).Disguised := by
  rw [AutoloadEntry.ofJson]
  split
  · exact id
  · rename_i htable
    split
    · exact id
    · rw [h, Disguised, htable]
      exact Bool.false_ne_true

namespace Package

theorem not_disguised_of_tidy {j : Json} {p : Package} (hread : ofJson? j = some p) (h : j.tidy = j) :
    ¬ p.Disguised := by
  obtain ⟨entries, rfl, -, hautoload, hautoloadDev, -, -, -⟩ := ofJson?_eq_some hread
  have hsection : ∀ {name : String} {o : Option AutoloadMap},
      (Json.field? entries name).bind (optional? AutoloadMap.ofJson?) = some o →
      ∀ map ∈ o, ∀ e ∈ map.strategies, ¬ e.2.Disguised := by
    intro name o hfield map hmap e he
    obtain ⟨k, hk, -, hk'⟩ := exists_of_optional hfield hmap
    have htidy : k.tidy = k := Json.tidy_of_mem_object h _ hk
    cases k with
    | object fields =>
      cases hk'
      obtain ⟨f, hf, rfl⟩ := List.mem_map.1 (Entries.mem_ofList he)
      exact AutoloadEntry.not_disguised_of_tidy (Json.tidy_of_mem_object htidy f hf)
    | array items =>
      cases hk'
      exact absurd he List.not_mem_nil
    | _ => cases hk'
  rintro ⟨map, hmap, e, he, hdisguised⟩
  rcases List.mem_append.1 hmap with hmap | hmap
  · exact hsection hautoload map (Option.mem_toList.1 hmap) e he hdisguised
  · exact hsection hautoloadDev map (Option.mem_toList.1 hmap) e he hdisguised

end Package

namespace InstalledDocument

variable {document : InstalledDocument}

/-- **Where no object repeats a key, no object is disguised.** -/
theorem not_disguised_of_tidy {j : Json} (hread : ofJson? j = some document) (h : j.tidy = j) :
    ¬ document.Disguised := by
  have hpackages : ∀ {items : List Json} {packages : List Package}, items.mapM Package.ofJson? = some packages →
      (Json.array items).tidy = .array items → ∀ p ∈ packages, ¬ p.Disguised := by
    intro items packages hmap htidy p hp
    obtain ⟨i, hi, hpi⟩ := Json.exists_of_mem_mapM hmap hp
    exact Package.not_disguised_of_tidy hpi (Json.tidy_of_mem_array htidy i hi)
  rintro ⟨p, hp, hdisguised⟩
  rcases ofJson?_eq_some hread with
    ⟨entries, items, packages, rfl, hfield, hitems, rfl⟩ | ⟨items, packages, rfl, hitems, rfl⟩
  · exact hpackages hitems (Json.tidy_of_mem_object h _ (Json.mem_of_field? hfield)) p hp hdisguised
  · exact hpackages hitems h p hp hdisguised

/-! ## Texts -/

/-- a document whose text can be read -/
structure Readable (document : InstalledDocument) : Prop where
  kept : document.Kept
  depth : document.toJson.depth ≤ Json.depthLimit
  numbers : ∀ n ∈ document.toJson.numbers, n.ReadsBack

theorem readable_of_parse {text : String} {j : Json} (hparse : Json.parse? text = some j)
    (hread : ofJson? j = some document) (hnumbers : ∀ n ∈ document.toJson.numbers, n.ReadsBack) :
    document.Readable :=
  ⟨ofJson?_kept hread, Nat.le_trans (simpler_toJson hread).depth (Json.depth_le_of_parse? hparse), hnumbers⟩

/-- **The text of a document is read as the settled document.** -/
theorem parse?_render (h : document.Readable) : (Json.parse? document.render).bind ofJson? = some document.settled := by
  rw [render, Json.parse?_pretty h.depth h.numbers, Option.bind_some, ofJson?_toJson h.kept]

theorem render_settled (h : document.Kept) : document.settled.render = document.render := by
  rw [render, render, toJson_settled h]

end InstalledDocument

/-! ## Prefixed records -/

theorem AutoloadEntry.Kept.prefixNamespaces {entry : AutoloadEntry} (policy : Policy) (h : entry.Kept) :
    (entry.prefixNamespaces policy).Kept := by
  cases entry with
  | mapping keys => exact Entries.nodup_ofList _
  | paths ps => exact h
  | other value => exact h

theorem AutoloadEntry.simpler_prefixNamespaces (policy : Policy) (entry : AutoloadEntry) :
    Json.Simpler (entry.prefixNamespaces policy).toJson entry.toJson := by
  cases entry with
  | mapping keys =>
    refine .object fun w hw => ?_
    obtain ⟨r, hr, rfl⟩ := List.mem_map.1 hw
    obtain ⟨e, he, rfl⟩ := List.mem_map.1 (Entries.mem_ofList hr)
    exact ⟨_, List.mem_map_of_mem he, .refl _⟩
  | paths ps => exact .refl _
  | other value => exact .refl _

theorem AutoloadMap.Kept.prefixNamespaces {map : AutoloadMap} (policy : Policy) (h : map.Kept) :
    (map.prefixNamespaces policy).Kept := by
  refine ⟨?_, fun e he => ?_⟩
  · rw [AutoloadMap.prefixNamespaces, List.map_map]
    exact h.1
  · obtain ⟨s, hs, rfl⟩ := List.mem_map.1 he
    exact AutoloadEntry.Kept.prefixNamespaces policy (h.2 s hs)

theorem AutoloadMap.simpler_prefixNamespaces (policy : Policy) (map : AutoloadMap) :
    Json.Simpler (map.prefixNamespaces policy).toJson map.toJson := by
  refine .object fun w hw => ?_
  obtain ⟨s, hs, rfl⟩ := List.mem_map.1 hw
  obtain ⟨e, he, rfl⟩ := List.mem_map.1 hs
  exact ⟨_, List.mem_map_of_mem he, e.2.simpler_prefixNamespaces policy⟩

namespace Package

/-- `q` is `p` with its keys put under some prefixes, one after the other -/
inductive Prefixed (p : Package) : Package → Prop
  | refl : Prefixed p p
  | step {q : Package} (policy : Policy) : Prefixed p q → Prefixed p (q.prefixAutoload policy)

theorem Kept.prefixAutoload {p : Package} (policy : Policy) (h : p.Kept) : (p.prefixAutoload policy).Kept := by
  refine ⟨fun map hmap => ?_, h.require, h.extra⟩
  have hsection : ∀ {o : Option AutoloadMap}, (∀ map ∈ o, map.Kept) →
      ∀ map ∈ o.map (AutoloadMap.prefixNamespaces policy), map.Kept := by
    intro o ho map hmap
    obtain ⟨old, hold, rfl⟩ := Option.map_eq_some_iff.1 hmap
    exact AutoloadMap.Kept.prefixNamespaces policy (ho old hold)
  rcases List.mem_append.1 hmap with hmap | hmap
  · exact hsection h.autoload map (Option.mem_toList.1 hmap)
  · exact hsection h.autoloadDev map (Option.mem_toList.1 hmap)

theorem simpler_prefixAutoload (policy : Policy) (p : Package) :
    Json.Simpler (p.prefixAutoload policy).toJson p.toJson := by
  have hsection : ∀ (name : String) (o : Option AutoloadMap),
      ∀ e ∈ written name AutoloadMap.toJson (o.map (AutoloadMap.prefixNamespaces policy)),
        ∃ f ∈ written name AutoloadMap.toJson o, Json.Simpler e.2 f.2 := by
    intro name o e he
    cases o with
    | none => exact absurd he List.not_mem_nil
    | some map =>
      rw [List.mem_singleton.1 he]
      exact ⟨_, List.mem_singleton_self _, map.simpler_prefixNamespaces policy⟩
  refine .object fun e he => ?_
  simp only [prefixAutoload, List.mem_append] at he
  rcases he with ((((he | he) | he) | he) | he) | he
  · exact ⟨e, by simp [List.mem_singleton.1 he], .refl _⟩
  · obtain ⟨f, hf, hef⟩ := hsection _ _ e he
    exact ⟨f, by simp [hf], hef⟩
  · obtain ⟨f, hf, hef⟩ := hsection _ _ e he
    exact ⟨f, by simp [hf], hef⟩
  · exact ⟨e, by simp [he], .refl _⟩
  · exact ⟨e, by simp [he], .refl _⟩
  · exact ⟨e, by simp [he], .refl _⟩

variable {p q : Package}

theorem Prefixed.kept (h : p.Prefixed q) (hp : p.Kept) : q.Kept := by
  induction h with
  | refl => exact hp
  | step policy _ ih => exact ih.prefixAutoload policy

theorem Prefixed.simpler (h : p.Prefixed q) : Json.Simpler q.toJson p.toJson := by
  induction h with
  | refl => exact .refl _
  | step policy _ ih => exact (simpler_prefixAutoload policy _).trans ih

end Package

/-- the text can still be read after keys were put under prefixes -/
theorem InstalledDocument.Readable.prefixed {document : InstalledDocument} {packages : List Package}
    (h : document.Readable) (hpackages : List.Forall₂ Package.Prefixed document.packages packages) :
    (document.withPackages packages).Readable := by
  have hmem : ∀ q ∈ packages, ∃ p ∈ document.packages, p.Prefixed q := fun q => Json.exists_of_mem_right hpackages
  have hkept : ∀ q ∈ packages, q.Kept := by
    intro q hq
    obtain ⟨p, hp, hpq⟩ := hmem q hq
    exact hpq.kept (h.kept.packages p hp)
  have hlist : Json.Simpler (.array (packages.map Package.toJson)) (.array (document.packages.map Package.toJson)) := by
    refine .array fun w hw => ?_
    obtain ⟨q, hq, rfl⟩ := List.mem_map.1 hw
    obtain ⟨p, hp, hpq⟩ := hmem q hq
    exact ⟨_, List.mem_map_of_mem hp, hpq.simpler⟩
  have hsimpler : Json.Simpler (document.withPackages packages).toJson document.toJson := by
    cases document with
    | record old extra =>
      refine .object (List.forall_mem_cons.2 ⟨⟨_, List.mem_cons_self, hlist⟩, fun e he => ?_⟩)
      exact ⟨e, List.mem_cons_of_mem _ he, .refl _⟩
    | bare old => exact hlist
  refine ⟨?_, Nat.le_trans hsimpler.depth h.depth, fun n hn => h.numbers n (hsimpler.numbers n hn)⟩
  cases document with
  | record old extra => exact ⟨hkept, h.kept.extra⟩
  | bare old => exact ⟨hkept, h.kept.extra⟩

/-! ## On disk -/

namespace SourceFile

theorem readText_eq_ok {d : Disk} {path text : String} (h : readText d path = .ok text) :
    d.read path = .ok (Utf8.encode text) := by
  rw [readText, Disk.readText] at h
  cases hread : d.read path with
  | error e => rw [hread] at h; cases h
  | ok bytes =>
    rw [hread] at h
    dsimp only at h
    split at h
    · rename_i s hs
      cases h
      rw [Utf8.encode_of_decode? hs]
    · cases h

end SourceFile

namespace Project

variable {d d' : Disk} {p : Project}

theorem readInstalled_eq_ok {path : String} {document : InstalledDocument} :
    readInstalled d path = .ok document ↔ ∃ text j, d.read path = .ok (Utf8.encode text) ∧
      Json.parse? text = some j ∧ InstalledDocument.ofJson? j = some document := by
  rw [readInstalled]
  constructor
  · intro h
    cases htext : SourceFile.readText d path with
    | error e => rw [htext] at h; cases h
    | ok text =>
      rw [htext] at h
      simp only [bind, Except.bind] at h
      split at h
      · rename_i document' hread
        cases h
        obtain ⟨j, hj, hdocument⟩ := Option.bind_eq_some_iff.1 hread
        exact ⟨text, j, SourceFile.readText_eq_ok htext, hj, hdocument⟩
      · cases h
  · rintro ⟨text, j, hread, hj, hdocument⟩
    rw [SourceFile.readText_of_read hread]
    simp only [bind, Except.bind, hj, Option.bind_some, hdocument]
    rfl

/-- **After a project was written, its record is read as the settled one.** -/
theorem readInstalled_of_persist {changed : Bool} (hdocument : p.installed.Readable)
    (h : p.persist d = .ok (changed, d')) : readInstalled d' p.installedPath = .ok p.installed.settled := by
  obtain ⟨j, hj, hread⟩ := Option.bind_eq_some_iff.1 (InstalledDocument.parse?_render hdocument)
  exact readInstalled_eq_ok.2 ⟨_, j, SourceFile.read_of_writeIfChanged h, hj, hread⟩

/-! ## Opening again -/

theorem readManifest_eq_ok {path : String} {manifest : Json} :
    readManifest d path = .ok manifest ↔
      ∃ text j, d.read path = .ok (Utf8.encode text) ∧ Json.parse? text = some j ∧ manifest = j.tidy := by
  rw [readManifest]
  constructor
  · intro h
    cases htext : SourceFile.readText d path with
    | error e => rw [htext] at h; cases h
    | ok text =>
      rw [htext] at h
      simp only [bind, Except.bind] at h
      split at h
      · rename_i j hj
        cases h
        exact ⟨text, j, SourceFile.readText_eq_ok htext, hj, rfl⟩
      · cases h
  · rintro ⟨text, j, hread, hj, rfl⟩
    rw [SourceFile.readText_of_read hread]
    simp only [bind, Except.bind, hj]
    rfl

theorem openAt_eq_ok {directory : String} (h : openAt d directory = .ok p) :
    d.canonicalize directory = .ok p.root ∧ readManifest d (Path.join p.root "composer.json") = .ok p.manifest ∧
      p.vendorDir = Path.normalize (Path.join p.root (vendorDirOf p.manifest)) ∧
      p.installedPath = Path.join (Path.join p.vendorDir "composer") "installed.json" ∧
      readInstalled d p.installedPath = .ok p.installed := by
  rw [openAt] at h
  cases hroot : d.canonicalize directory with
  | error e => rw [hroot] at h; cases h
  | ok root =>
    rw [hroot] at h
    simp only [bind, Except.bind, Except.mapError] at h
    cases hmanifest : readManifest d (Path.join root "composer.json") with
    | error e => rw [hmanifest] at h; cases h
    | ok manifest =>
      rw [hmanifest] at h
      dsimp only at h
      split at h
      · cases h
      · rename_i installed hinstalled
        cases h
        refine ⟨rfl, hmanifest, ?_, ?_, ?_⟩
        · dsimp only
        · dsimp only
        · dsimp only
          exact hinstalled

theorem openAt_of {directory root : String} {manifest : Json} (installed : InstalledDocument)
    (hroot : d.canonicalize directory = .ok root)
    (hmanifest : readManifest d (Path.join root "composer.json") = .ok manifest)
    (hinstalled : readInstalled d (Path.join (Path.join
      (Path.normalize (Path.join root (vendorDirOf manifest))) "composer") "installed.json") = .ok installed) :
    openAt d directory = .ok
      { root, manifest, installed
        vendorDir := Path.normalize (Path.join root (vendorDirOf manifest))
        installedPath := Path.join (Path.join
          (Path.normalize (Path.join root (vendorDirOf manifest))) "composer") "installed.json" } := by
  rw [openAt, hroot]
  simp only [bind, Except.bind, Except.mapError, hmanifest, hinstalled]
  rfl

/-- what a record in the place of the manifest says is among its other fields -/
theorem config_toJson {document : InstalledDocument} (h : document.Kept) :
    document.toJson.tidy.get? "config" = Entries.get? "config" document.extra := by
  cases document with
  | record packages extra =>
    have htidy : Json.tidyEntries extra = extra := h.extra.tidyEntries
    have hnodup : ((Json.tidyEntries (("packages", Json.array (packages.map Package.toJson)) :: extra)).map
        Prod.fst).Nodup := by
      rw [Json.tidyEntries, htidy, List.map_cons, List.nodup_cons]
      refine ⟨fun hmem => ?_, h.extra.1⟩
      obtain ⟨e, he, hname⟩ := List.mem_map.1 hmem
      exact (h.extra.2 e he).1 (List.mem_singleton.2 hname)
    rw [InstalledDocument.toJson, Json.tidy, Entries.ofList_of_nodup hnodup, Json.tidyEntries, htidy, Json.get?,
      Entries.get?, if_neg (by decide), InstalledDocument.extra]
  | bare packages => rfl

/-- and so it was in the text it was read from; of several `config` fields the last counts -/
theorem config_of_read {j : Json} {document : InstalledDocument} (h : InstalledDocument.ofJson? j = some document) :
    j.tidy.get? "config" = Entries.get? "config" document.extra := by
  rcases InstalledDocument.ofJson?_eq_some h with
    ⟨entries, items, packages, rfl, -, -, rfl⟩ | ⟨items, packages, rfl, -, rfl⟩
  · rw [Json.tidy, Json.get?, InstalledDocument.extra, Package.extraOf, Json.tidyEntries_eq, Json.tidyEntries_eq,
      Entries.ofList_map, Entries.ofList_map, Entries.get?_map, Entries.get?_map, Entries.get?_ofList_filter]
    intro e _ hname
    simp [hname]
  · rfl

theorem isAbsolute_of_canonicalize {path root : String} (h : d.canonicalize path = .ok root) :
    Path.isAbsolute root = true := by
  rw [Disk.canonicalize] at h
  split at h
  · cases h
  · cases h
    exact Disk.isAbsolute_pathOf _
  · cases h

theorem withPackages_extra (packages : List Package) (document : InstalledDocument) :
    (document.withPackages packages).extra = document.extra := by
  cases document <;> rfl

/-- A manifest still names the vendor directory after the record was written, also where the two are one file. -/
theorem readManifest_set {l : Location} {j : Json} {document : InstalledDocument} {manifest : Json}
    {path text : String} (hl : d.get? l = some (.file (Utf8.encode text))) (hparse : Json.parse? text = some j)
    (hread : InstalledDocument.ofJson? j = some document) {written : InstalledDocument} (hwritten : written.Readable)
    (hextra : written.extra = document.extra) (hpath : Path.isAbsolute path = true)
    (hmanifest : readManifest d path = .ok manifest) :
    ∃ manifest', readManifest (d.set l (.file (Utf8.encode written.render))) path = .ok manifest' ∧
      vendorDirOf manifest' = vendorDirOf manifest := by
  obtain ⟨text', j', hbytes, hj', rfl⟩ := readManifest_eq_ok.1 hmanifest
  rcases Disk.read_set hl (.inl hpath) hbytes (Utf8.encode written.render) with hsame | ⟨hbytes', hnew⟩
  · exact ⟨_, readManifest_eq_ok.2 ⟨text', j', hsame, hj', rfl⟩, rfl⟩
  · -- the manifest is the record: what it says besides its packages was written back
    have htext : text' = text := by
      have hdecode := Utf8.decode?_encode text'
      rw [hbytes', Utf8.decode?_encode] at hdecode
      exact (Option.some.inj hdecode).symm
    have hjj' : j' = j := by
      rw [htext, hparse] at hj'
      exact (Option.some.inj hj').symm
    have hrendered : Json.parse? written.render = some written.toJson :=
      Json.parse?_pretty hwritten.depth hwritten.numbers 4
    refine ⟨_, readManifest_eq_ok.2 ⟨written.render, _, hnew, hrendered, rfl⟩, ?_⟩
    rw [vendorDirOf, vendorDirOf, hjj', config_of_read hread, config_toJson hwritten.kept, hextra]

/-- **A project that was opened can be written and opened again, and then there is nothing to write.** Before it is
written its keys may have been put under prefixes. -/
theorem reopened {directory : String} {packages : List Package}
    (hcurrent : ∀ m, m <+: d.current → d.get? m = some .directory) (hopen : openAt d directory = .ok p)
    (hnumbers : ∀ n ∈ p.installed.toJson.numbers, n.ReadsBack)
    (hpackages : List.Forall₂ Package.Prefixed p.packages packages) :
    ∃ changed d' p', (p.withPackages packages).persist d = .ok (changed, d') ∧ openAt d' directory = .ok p' ∧
      p'.installedPath = p.installedPath ∧ p'.installed = (p.installed.withPackages packages).settled ∧
      p'.persist d' = .ok (false, d') := by
  obtain ⟨hroot, hmanifest, hvendor, hpath, hinstalled⟩ := openAt_eq_ok hopen
  obtain ⟨text, j, hbytes, hparse, hread⟩ := readInstalled_eq_ok.1 hinstalled
  have hreadable := InstalledDocument.readable_of_parse hparse hread hnumbers
  have hwritten : (p.withPackages packages).installed.Readable := hreadable.prefixed hpackages
  obtain ⟨changed, d', hpersist, hdisk⟩ :=
    SourceFile.writeIfChanged_ok hbytes (Utf8.encode (p.withPackages packages).installed.render)
  have hreread := readInstalled_of_persist hwritten hpersist
  obtain ⟨hroot', manifest', hmanifest', hvendor'⟩ : d'.canonicalize directory = .ok p.root ∧
      ∃ manifest', readManifest d' (Path.join p.root "composer.json") = .ok manifest' ∧
        vendorDirOf manifest' = vendorDirOf p.manifest := by
    rcases hdisk with rfl | ⟨l, hl, rfl⟩
    · exact ⟨hroot, p.manifest, hmanifest, rfl⟩
    · have hbelow : ¬ l <+: d.current := fun hfront => by
        cases hl.symm.trans (hcurrent l hfront)
      have habsolute := Path.isAbsolute_join (isAbsolute_of_canonicalize hroot) "composer.json"
      refine ⟨(Disk.canonicalize_set hl (.inr hbelow) _).trans hroot, ?_⟩
      exact readManifest_set hl hparse hread hwritten (withPackages_extra packages p.installed)
        habsolute hmanifest
  have hopen' := openAt_of (p.withPackages packages).installed.settled hroot' hmanifest' (by
    rw [hvendor', ← hvendor, ← hpath]
    exact hreread)
  rw [hvendor', ← hvendor, ← hpath] at hopen'
  refine ⟨changed, d', _, hpersist, hopen', rfl, rfl, ?_⟩
  -- the settled record has the text that is there
  refine SourceFile.writeIfChanged_of_read ?_
  dsimp only
  rw [InstalledDocument.render_settled hwritten.kept]
  exact SourceFile.read_of_writeIfChanged hpersist

end Project

namespace InstalledDocument

/-- **A document reads back as the settled one, which is written alike.** It is the document itself unless an object in
it is disguised, and that takes a repeated key. A project with this record, its keys put under prefixes or not, can be
written and opened again, and then there is nothing to write. -/
theorem installed_round_trip {text : String} {j : Json} {document : InstalledDocument}
    (hparse : Json.parse? text = some j) (hread : ofJson? j = some document)
    (hnumbers : ∀ n ∈ document.toJson.numbers, n.ReadsBack) :
    (Json.parse? document.render).bind ofJson? = some document.settled ∧
      document.settled.toJson = document.toJson ∧ (document.settled = document ↔ ¬ document.Disguised) ∧
      (j.tidy = j → document.settled = document) ∧
      ∀ (d : Disk) (directory : String) (p : Project) (packages : List Package),
        (∀ m, m <+: d.current → d.get? m = some .directory) → Project.openAt d directory = .ok p →
        p.installed = document → List.Forall₂ Package.Prefixed p.packages packages →
        ∃ changed d' p', (p.withPackages packages).persist d = .ok (changed, d') ∧
          Project.openAt d' directory = .ok p' ∧ p'.installedPath = p.installedPath ∧
          p'.persist d' = .ok (false, d') := by
  have hkept := ofJson?_kept hread
  have hsettled := settled_eq_self_iff hkept
  refine ⟨parse?_render (readable_of_parse hparse hread hnumbers), toJson_settled hkept, hsettled,
    fun htidy => hsettled.2 (not_disguised_of_tidy hread htidy), ?_⟩
  rintro d directory p packages hcurrent hopen rfl hpackages
  obtain ⟨changed, d', p', hpersist, hopen', hpath, -, hunchanged⟩ :=
    Project.reopened hcurrent hopen hnumbers hpackages
  exact ⟨changed, d', p', hpersist, hopen', hpath, hunchanged⟩

/-- a record with fields of its own, a field that is null, a section written as a list and a strategy of mixed values -/
def sampleRecord : Json :=
  .object [("packages", .array [.object [("name", .text "lib/one"), ("version", .text "1.0"),
      ("autoload", .object [("psr-4", .object [("Lib\\", .text "src/")]), ("files", .array [.text "a.php"]),
        ("classmap", .array [.text "x", .number (.whole 5)])]),
      ("autoload-dev", .array []), ("require", .null)]]), ("dev", .bool true)]

def sampleRecordRead : InstalledDocument :=
  record [{ name := "lib/one"
            autoload := some ⟨[("psr-4", .mapping [("Lib\\", .single "src/")]), ("files", .paths ["a.php"]),
              ("classmap", .other (.array [.text "x", .number (.whole 5)]))]⟩
            autoloadDev := some ⟨[]⟩
            extra := [("version", .text "1.0")] }] [("dev", .bool true)]

/-- a project with a record, an empty manifest and other entries on disk -/
def sampleDisk (installed : Json) (others : List (Location × Entry)) : Disk where
  entries := [(["p"], .directory), (["p", "composer.json"], .file (Utf8.encode ((Json.object []).pretty 4 ++ "\n"))),
    (["p", "vendor"], .directory), (["p", "vendor", "composer"], .directory),
    (["p", "vendor", "composer", "installed.json"], .file (Utf8.encode (installed.pretty 2 ++ "\n")))] ++ others

def sampleProject (document : InstalledDocument) : Project :=
  ⟨"/p", .object [], "/p/vendor", "/p/vendor/composer/installed.json", document⟩

theorem sampleDisk_opens {installed : Json} {document : InstalledDocument}
    (hparse : Json.parse? (installed.pretty 2 ++ "\n") = some installed) (hread : ofJson? installed = some document)
    (others : List (Location × Entry)) :
    Project.openAt (sampleDisk installed others) "/p" = .ok (sampleProject document) := by
  have hmanifest : Project.readManifest (sampleDisk installed others) "/p/composer.json" = .ok (.object []) :=
    Project.readManifest_eq_ok.2 ⟨_, .object [], rfl, Json.parse?_pretty (by decide) (by decide) 4, rfl⟩
  have hinstalled : Project.readInstalled (sampleDisk installed others) "/p/vendor/composer/installed.json" =
      .ok document :=
    Project.readInstalled_eq_ok.2 ⟨_, _, rfl, hparse, hread⟩
  exact Project.openAt_of _ rfl hmanifest hinstalled

/-- the record reads back as itself, and the project is written and opened again -/
theorem installed_round_trip_sample :
    (Json.parse? sampleRecordRead.render).bind ofJson? = some sampleRecordRead ∧
      ∃ changed d' p', (sampleProject sampleRecordRead).persist (sampleDisk sampleRecord []) = .ok (changed, d') ∧
        Project.openAt d' "/p" = .ok p' ∧ p'.persist d' = .ok (false, d') := by
  have hparse : Json.parse? (sampleRecord.pretty 2 ++ "\n") = some sampleRecord :=
    Json.parse?_pretty (by decide) (by decide) 2
  have hread : ofJson? sampleRecord = some sampleRecordRead := rfl
  obtain ⟨hback, -, -, hsettled, hproject⟩ := installed_round_trip hparse hread (by decide)
  rw [hsettled rfl] at hback
  obtain ⟨changed, d', p', hpersist, hopen, -, hunchanged⟩ := hproject (sampleDisk sampleRecord []) "/p"
    (sampleProject sampleRecordRead) sampleRecordRead.packages (fun m hm => by rw [List.prefix_nil.1 hm]; rfl)
    (sampleDisk_opens hparse hread []) rfl (List.forall₂_same.2 fun p _ => .refl)
  exact ⟨hback, changed, d', p', hpersist, hopen, hunchanged⟩

/-- a strategy whose first value of a repeated key is no path -/
def repeatedKeys : Json :=
  .object [("packages", .array [.object [("name", .text "lib/one"), ("autoload", .object [("psr-4",
    .object [("Lib\\", .number (.whole 5)), ("Lib\\", .text "src/")])])]])]

/-- the document that is read from it -/
def repeatedKeysRead : InstalledDocument :=
  record [{ name := "lib/one", autoload := some ⟨[("psr-4", .other (.object [("Lib\\", .text "src/")]))]⟩ }] []

/-- It is kept as it is when read first, and a mapping when read again. -/
theorem repeatedKeys_read_differently :
    (Json.parse? (repeatedKeys.pretty 4 ++ "\n")).bind ofJson? = some repeatedKeysRead ∧
      (∀ n ∈ repeatedKeysRead.toJson.numbers, n.ReadsBack) ∧
      (Json.parse? repeatedKeysRead.render).bind ofJson? ≠ some repeatedKeysRead := by
  have hparse : Json.parse? (repeatedKeys.pretty 4 ++ "\n") = some repeatedKeys :=
    Json.parse?_pretty (by decide) (by decide) 4
  have hread : ofJson? repeatedKeys = some repeatedKeysRead := rfl
  have hnumbers : ∀ n ∈ repeatedKeysRead.toJson.numbers, n.ReadsBack := by decide
  have hdisguised : repeatedKeysRead.Disguised :=
    ⟨_, List.mem_singleton_self _, _, List.mem_singleton_self _, _, List.mem_singleton_self _, rfl⟩
  refine ⟨by rw [hparse]; exact hread, hnumbers, fun hsame => ?_⟩
  rw [parse?_render (readable_of_parse hparse hread hnumbers)] at hsame
  exact (settled_eq_self_iff (ofJson?_kept hread)).1 (Option.some.inj hsame) hdisguised

end InstalledDocument

end Isolation
