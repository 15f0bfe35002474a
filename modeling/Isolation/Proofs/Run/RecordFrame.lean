/-
What a run leaves alone in the record of installed packages.

A run changes mapping keys of the packages it isolates and nothing else: the record has the same shape, the same other
fields and the same packages in the same order, and so has what is read from it afterwards. Reading makes one
difference of its own: a disguised object comes back as the mapping it looks like.

- `isolatePackages_records`: the packages in memory after a run, one by one.
- `framed_settled`: a package with its keys put under the prefix, written and read again.
- `mutateNamespaces_written`: what is read from the disk after a run that got to writing.
- `mutateNamespaces_framed`: the frame of a run.
-/
import Isolation.Proofs.Composer.Persistence
import Isolation.Run

namespace Isolation

/-! ## Reading again -/

/-- the strategy, or the mapping that it looks like -/
def AutoloadEntry.Reread (entry again : AutoloadEntry) : Prop :=
  again = entry ∨ entry.Disguised ∧ again = entry.settled

theorem AutoloadEntry.reread_settled {entry : AutoloadEntry} (h : entry.Kept) : entry.Reread entry.settled := by
  by_cases hdisguised : entry.Disguised
  · exact .inr ⟨hdisguised, rfl⟩
  · exact .inl ((AutoloadEntry.settled_eq_self_iff h).2 hdisguised)

/-- the package, or the package with disguised objects as the mappings they look like -/
def Package.Reread (p again : Package) : Prop := again = p ∨ p.Disguised ∧ again = p.settled

theorem Package.reread_settled {p : Package} (h : p.Kept) : p.Reread p.settled := by
  by_cases hdisguised : p.Disguised
  · exact .inr ⟨hdisguised, rfl⟩
  · exact .inl ((Package.settled_eq_self_iff h).2 hdisguised)

/-! ## Isolated packages -/

/-- a mapping that may have other keys, or the same strategy read again -/
def AutoloadEntry.Framed (entry again : AutoloadEntry) : Prop :=
  (∃ keys keys', entry = .mapping keys ∧ again = .mapping keys') ∨ entry.Reread again

/-- the same strategies in the same order -/
def AutoloadMap.Framed (map again : AutoloadMap) : Prop :=
  List.Forall₂ (fun s t => t.1 = s.1 ∧ s.2.Framed t.2) map.strategies again.strategies

/-- only the keys of mappings may differ -/
structure Package.Framed (p again : Package) : Prop where
  name : again.name = p.name
  autoload : Option.Rel AutoloadMap.Framed p.autoload again.autoload
  autoloadDev : Option.Rel AutoloadMap.Framed p.autoloadDev again.autoloadDev
  require : again.require = p.require
  installPath : again.installPath = p.installPath
  extra : again.extra = p.extra

theorem AutoloadEntry.framed_settled {entry : AutoloadEntry} (policy : Policy) (h : entry.Kept) :
    entry.Framed (entry.prefixNamespaces policy).settled := by
  cases entry with
  | mapping keys => exact .inl ⟨keys, _, rfl, rfl⟩
  | paths ps => exact .inr (.inl rfl)
  | other value => exact .inr (reread_settled h)

theorem AutoloadMap.framed_settled {map : AutoloadMap} (policy : Policy) (h : map.Kept) :
    map.Framed (map.prefixNamespaces policy).settled := by
  rw [Framed, settled, prefixNamespaces, List.map_map, List.forall₂_map_right_iff, List.forall₂_same]
  exact fun s hs => ⟨rfl, AutoloadEntry.framed_settled policy (h.2 s hs)⟩

/-- **A package with its keys put under the prefix, written and read again.** -/
theorem Package.framed_settled {p : Package} (policy : Policy) (h : p.Kept) :
    p.Framed (p.prefixAutoload policy).settled := by
  have hsection : ∀ {o : Option AutoloadMap}, (∀ map ∈ o, map.Kept) →
      Option.Rel AutoloadMap.Framed o ((o.map (AutoloadMap.prefixNamespaces policy)).map AutoloadMap.settled) := by
    intro o ho
    cases o with
    | none => exact .none
    | some map => exact .some (AutoloadMap.framed_settled policy (ho map rfl))
  exact ⟨rfl, hsection h.autoload, hsection h.autoloadDev, rfl, rfl, rfl⟩

theorem Package.framed_refl (p : Package) : p.Framed p := by
  have hmap : ∀ map : AutoloadMap, map.Framed map := fun map =>
    List.forall₂_same.2 fun s _ => ⟨rfl, .inr (.inl rfl)⟩
  have hsection : ∀ o : Option AutoloadMap, Option.Rel AutoloadMap.Framed o o := by
    intro o
    cases o with
    | none => exact .none
    | some map => exact .some (hmap map)
  exact ⟨rfl, hsection _, hsection _, rfl, rfl, rfl⟩

namespace Engine

/-- what may be read of a planned package after a run -/
def RecordKept (planned : Package × Option String) (again : Package) : Prop :=
  match planned.2 with
  | none => planned.1.Reread again
  | some _ => planned.1.Framed again

/-- the package in memory after a run: with its keys under the prefix if it is to be isolated -/
def isolated (policy : Policy) (planned : Package × Option String) : Package :=
  match planned.2 with
  | none => planned.1
  | some _ => planned.1.prefixAutoload policy

/-- **The packages in memory after a run.** What happens on disk has no part in them. -/
theorem isolatePackages_records (job : Job) (plan : List (Package × Option String)) (report : IsolationReport)
    (d : Disk) : (job.isolatePackages plan report d).1 = plan.map (isolated job.policy) := by
  induction plan generalizing report d with
  | nil => rfl
  | cons planned rest ih =>
    obtain ⟨package, dir⟩ := planned
    cases dir with
    | none => exact congrArg (package :: ·) (ih report d)
    | some dir => exact congrArg (package.prefixAutoload job.policy :: ·) (ih _ _)

variable {e : Engine} {d : Disk} {report : IsolationReport}

theorem settled_withPackages (document : InstalledDocument) (packages : List Package) :
    (document.withPackages packages).settled = document.withPackages (packages.map Package.settled) := by
  cases document <;> rfl

theorem withPackages_self (document : InstalledDocument) : document.withPackages document.packages = document := by
  cases document <;> rfl

theorem plan_packages (e : Engine) (d : Disk) : (e.plan d).map Prod.fst = e.project.packages := by
  rw [plan, List.map_map]
  exact List.map_id _

/-- **What is read from the disk after a run that got to writing.** -/
theorem mutateNamespaces_written (hreadable : e.project.installed.Readable)
    (hfound : (e.discover d).namespaces.isEmpty = false) (hok : (e.mutateNamespaces d).outcome = .ok report) :
    ∃ policy, Project.readInstalled (e.mutateNamespaces d).disk e.project.installedPath =
      .ok (e.project.installed.withPackages ((e.plan d).map fun planned => (isolated policy planned).settled)) := by
  have hfound : ¬ (e.discoverPlan d (e.plan d)).namespaces.isEmpty = true := by
    rw [← discover, hfound]
    exact Bool.false_ne_true
  rw [mutateNamespaces] at hok ⊢
  dsimp only at hok ⊢
  rw [if_neg hfound] at hok ⊢
  cases hjob : e.job (e.discoverPlan d (e.plan d)).namespaces with
  | error f => rw [hjob] at hok; cases hok
  | ok job =>
    rw [hjob] at hok
    dsimp only at hok ⊢
    rw [isolatePackages_records] at hok ⊢
    set d' := (job.isolatePackages (e.plan d) (e.startReport (e.plan d) (e.discoverPlan d (e.plan d))) d).2.2
    have hprefixed : List.Forall₂ Package.Prefixed e.project.packages ((e.plan d).map (isolated job.policy)) := by
      rw [← plan_packages e d, List.forall₂_map_left_iff, List.forall₂_map_right_iff, List.forall₂_same]
      rintro ⟨package, dir⟩ -
      cases dir with
      | none => exact .refl
      | some dir => exact .step job.policy .refl
    cases hpersist : (e.project.withPackages ((e.plan d).map (isolated job.policy))).persist d' with
    | error f => rw [hpersist] at hok; cases hok
    | ok written =>
      obtain ⟨changed, d''⟩ := written
      refine ⟨job.policy, (Project.readInstalled_of_persist (hreadable.prefixed hprefixed) hpersist).trans ?_⟩
      rw [Project.withPackages, settled_withPackages, List.map_map]
      rfl

/-- **The frame of a run.** After a run the record is read with the same shape, the same other fields and the same
packages in the same order. A package that was not to be isolated is as it was; of one that was, only mapping keys may differ. -/
theorem mutateNamespaces_framed {directory : String} (hopen : Project.openAt d directory = .ok e.project)
    (hnumbers : ∀ n ∈ e.project.installed.toJson.numbers, n.ReadsBack)
    (hok : (e.mutateNamespaces d).outcome = .ok report) :
    ∃ packages, Project.readInstalled (e.mutateNamespaces d).disk e.project.installedPath =
        .ok (e.project.installed.withPackages packages) ∧
      List.Forall₂ RecordKept (e.plan d) packages := by
  obtain ⟨-, -, -, -, hinstalled⟩ := Project.openAt_eq_ok hopen
  obtain ⟨text, j, -, hparse, hread⟩ := Project.readInstalled_eq_ok.1 hinstalled
  have hreadable := InstalledDocument.readable_of_parse hparse hread hnumbers
  cases hfound : (e.discover d).namespaces.isEmpty with
  | true =>
    -- without a namespace the disk is as it was
    have hdisk : (e.mutateNamespaces d).disk = d := by
      rw [discover] at hfound
      rw [mutateNamespaces]
      dsimp only
      rw [if_pos hfound]
    refine ⟨e.project.packages, ?_, ?_⟩
    · rw [hdisk, hinstalled, Project.packages, withPackages_self]
    · rw [← plan_packages e d, List.forall₂_map_right_iff, List.forall₂_same]
      rintro ⟨package, dir⟩ -
      cases dir with
      | none => exact .inl rfl
      | some dir => exact package.framed_refl
  | false =>
    obtain ⟨policy, hwritten⟩ := mutateNamespaces_written hreadable hfound hok
    refine ⟨_, hwritten, ?_⟩
    rw [List.forall₂_map_right_iff, List.forall₂_same]
    rintro ⟨package, dir⟩ hplanned
    have hkept : package.Kept := by
      refine hreadable.kept.packages package ?_
      rw [← Project.packages, ← plan_packages e d]
      exact List.mem_map_of_mem hplanned
    cases dir with
    | none => exact Package.reread_settled hkept
    | some dir => exact Package.framed_settled policy hkept

/-- two packages: one is to be isolated, the other is not on disk and its record repeats a key -/
def sampleRecord : Json :=
  .array [.object [("name", .text "one"), ("autoload", .object [("psr-4", .object [("A\\", .text "")])])],
    .object [("name", .text "two"), ("autoload", .object [("psr-4",
      .object [("B\\", .number (.whole 5)), ("B\\", .text "src/")])])]]

def absentPackage : Package :=
  { name := "two", autoload := some ⟨[("psr-4", .other (.object [("B\\", .text "src/")]))]⟩ }

def sampleDocument : InstalledDocument :=
  .bare [{ name := "one", autoload := some ⟨[("psr-4", .mapping [("A\\", .single "")])]⟩ }, absentPackage]

def sampleDisk : Disk :=
  InstalledDocument.sampleDisk sampleRecord [(["p", "vendor", "one"], .directory),
    (["p", "vendor", "one", "a.php"], .file (Utf8.encode "<?php namespace A;"))]

def sampleEngine : Engine :=
  { config := { vendorPrefix := "P\\Q", requireDev := true }
    project := InstalledDocument.sampleProject sampleDocument }

theorem sampleDisk_opens : Project.openAt sampleDisk "/p" = .ok sampleEngine.project :=
  InstalledDocument.sampleDisk_opens (Json.parse?_pretty (by decide) (by decide) 2) rfl _

theorem sample_absent : (sampleEngine.plan sampleDisk)[1]? = some (absentPackage, none) := by
  have hdir : sampleEngine.eligibleDir? sampleDisk sampleEngine.project.requiredPackages absentPackage = none := by
    decide +kernel
  rw [plan, List.getElem?_map, ← hdir]
  rfl

theorem sample_runs : ∃ report, (sampleEngine.mutateNamespaces sampleDisk).outcome = .ok report := by
  have hok : (sampleEngine.mutateNamespaces sampleDisk).outcome.toOption.isSome = true := by decide +kernel
  cases houtcome : (sampleEngine.mutateNamespaces sampleDisk).outcome with
  | error f => rw [houtcome] at hok; cases hok
  | ok report => exact ⟨report, rfl⟩

/-- the run ends well, and the record is read again -/
theorem mutateNamespaces_framed_sample : ∃ report packages,
    (sampleEngine.mutateNamespaces sampleDisk).outcome = .ok report ∧
      Project.readInstalled (sampleEngine.mutateNamespaces sampleDisk).disk sampleEngine.project.installedPath =
        .ok (sampleDocument.withPackages packages) ∧
      List.Forall₂ RecordKept (sampleEngine.plan sampleDisk) packages := by
  obtain ⟨report, hok⟩ := sample_runs
  obtain ⟨packages, hread, hkept⟩ := mutateNamespaces_framed sampleDisk_opens (by decide) hok
  exact ⟨report, packages, hok, hread, hkept⟩

/-- The record of the package that is not on disk comes back as another one. -/
theorem absent_record_changes : ∃ report packages,
    Project.openAt sampleDisk "/p" = .ok sampleEngine.project ∧
      (sampleEngine.mutateNamespaces sampleDisk).outcome = .ok report ∧
      Project.readInstalled (sampleEngine.mutateNamespaces sampleDisk).disk sampleEngine.project.installedPath =
        .ok (sampleDocument.withPackages packages) ∧
      (sampleEngine.plan sampleDisk)[1]? = some (absentPackage, none) ∧ packages[1]? ≠ some absentPackage := by
  obtain ⟨report, hok⟩ := sample_runs
  have hread : InstalledDocument.ofJson? sampleRecord = some sampleDocument := rfl
  have hparse : Json.parse? (sampleRecord.pretty 2 ++ "\n") = some sampleRecord :=
    Json.parse?_pretty (by decide) (by decide) 2
  have hreadable := InstalledDocument.readable_of_parse hparse hread (by decide)
  have hfound : (sampleEngine.discover sampleDisk).namespaces.isEmpty = false := by decide +kernel
  obtain ⟨policy, hwritten⟩ := mutateNamespaces_written hreadable hfound hok
  refine ⟨report, _, sampleDisk_opens, hok, hwritten, sample_absent, fun hsame => ?_⟩
  rw [List.getElem?_map, sample_absent] at hsame
  have hkept : absentPackage.Kept := hreadable.kept.packages _ (List.mem_cons_of_mem _ List.mem_cons_self)
  exact (Package.settled_eq_self_iff hkept).1 (Option.some.inj hsame)
    ⟨_, List.mem_singleton_self _, _, List.mem_singleton_self _, rfl⟩

end Engine

end Isolation
