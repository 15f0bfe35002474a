/-
The installed packages that a project requires. The names that the manifest requires are looked at one after the other;
the first look at an installed name marks it and puts the names on the list that its package requires. Names may be
pending many times over, packages may require each other or themselves, be missing, or share a name.

- `Required`: reached from the manifest, by requirements of installed packages.
- `required_isLeast`: these names are the least set that holds what is required and installed.
- `Turn`: one turn of the loop, whichever of the pending names it takes.
- `work_lt_of_turn`: there are no endless runs, since each turn leaves less to be done.
- `Explored`: what holds after each turn; `Explored.turn` is the step and `explored_of_turns` the run.
- `requiredPackages_isLeast`: the loop ends, in whichever order it takes the names, with exactly the required ones.
-/
import Isolation.Composer.Project
import Mathlib.Logic.Relation
import Mathlib.Order.Bounds.Basic
import Mathlib.Tactic

namespace Isolation.Project

variable {p : Project} {packages : List Package} {name other : String}

/-! ## What is required -/

/-- the names that the manifest requires -/
def requirements (p : Project) : List String := Package.namesOf (p.manifest.get? "require")

/-- some installed package has the name -/
def Installed (p : Project) (name : String) : Prop := ∃ package ∈ p.packages, package.name = name

/-- reached from the manifest: required by it, or by the first package of a name that is reached, and installed -/
inductive Required (p : Project) : String → Prop where
  | root {name : String} (hname : name ∈ p.requirements) (hinstalled : p.Installed name) : Required p name
  | next {name other : String} {package : Package} (hname : Required p name) (hpackage : p.package? name = some package)
      (hother : other ∈ package.requiredNames) (hinstalled : p.Installed other) : Required p other

/-- a set of names that misses nothing: it holds the installed names that the manifest requires and, with each name, the
installed names that the first package of that name requires -/
structure Supplies (p : Project) (names : Set String) : Prop where
  roots : ∀ name ∈ p.requirements, p.Installed name → name ∈ names
  closed : ∀ name ∈ names, ∀ package, p.package? name = some package →
    ∀ other ∈ package.requiredNames, p.Installed other → other ∈ names

theorem required_isLeast (p : Project) : IsLeast {names | p.Supplies names} {name | p.Required name} := by
  refine ⟨⟨?_, ?_⟩, ?_⟩
  · intro name hname hinstalled
    exact .root hname hinstalled
  · intro name hname package hpackage other hother hinstalled
    exact .next hname hpackage hother hinstalled
  · intro names hsupplies name hname
    induction hname with
    | root hname hinstalled => exact hsupplies.roots _ hname hinstalled
    | next _ hpackage hother hinstalled ih => exact hsupplies.closed _ ih _ hpackage _ hother hinstalled

theorem package?_eq_none : p.package? name = none ↔ ¬ p.Installed name := by
  simp [package?, Installed]

/-! ## The loop -/

/-- where the loop stands -/
structure Marking where
  marked : List String
  /-- names still to be looked at, some of them perhaps many times -/
  pending : List String

/-- one turn of the loop, which may take any of the pending names: a name that is marked already or not installed is
dropped; another one is marked, and what the first package of that name requires is put on the list -/
inductive Turn (packages : List Package) : Marking → Marking → Prop where
  | drop {marked pending rest : List String} {name : String} (htaken : pending.Perm (name :: rest))
      (hdropped : name ∈ marked ∨ packages.find? (fun p => p.name == name) = none) :
      Turn packages ⟨marked, pending⟩ ⟨marked, rest⟩
  | mark {marked pending rest : List String} {name : String} {package : Package} (htaken : pending.Perm (name :: rest))
      (hfresh : name ∉ marked) (hfound : packages.find? (fun p => p.name == name) = some package) :
      Turn packages ⟨marked, pending⟩ ⟨name :: marked, package.requiredNames ++ rest⟩

/-- the loop before its first turn -/
def start (p : Project) : Marking := ⟨[], p.requirements⟩

/-- as long as a name is pending there is another turn -/
theorem exists_turn {s : Marking} (h : s.pending ≠ []) : ∃ t, Turn packages s t := by
  obtain ⟨marked, pending⟩ := s
  obtain ⟨name, rest, rfl⟩ := List.exists_cons_of_ne_nil h
  by_cases hmarked : name ∈ marked
  · exact ⟨_, .drop (List.Perm.refl _) (.inl hmarked)⟩
  cases hfound : packages.find? (fun p => p.name == name) with
  | none => exact ⟨_, .drop (List.Perm.refl _) (.inr hfound)⟩
  | some package => exact ⟨_, .mark (List.Perm.refl _) hmarked hfound⟩

/-- marking is such a loop, which always takes the first name -/
theorem turns_mark (packages : List Package) (marked pending : List String) :
    Relation.ReflTransGen (Turn packages) ⟨marked, pending⟩ ⟨mark packages marked pending, []⟩ := by
  fun_induction mark packages marked pending with
  | case1 marked => exact .refl
  | case2 marked name rest hmarked ih =>
    exact .head (.drop (List.Perm.refl _) (.inl (by simpa using hmarked))) ih
  | case3 marked name rest hfresh hfound ih => exact .head (.drop (List.Perm.refl _) (.inr hfound)) ih
  | case4 marked name rest hfresh package hfound ih =>
    exact .head (.mark (List.Perm.refl _) (by simpa using hfresh) hfound) ih

/-! ## The loop ends -/

/-- what is left to be done: the pending names, and the requirements of the packages whose names are not marked -/
def work (packages : List Package) (s : Marking) : Nat :=
  s.pending.length + ((unmarked packages s.marked).map (·.requiredNames.length)).sum

/-- a name that is marked takes the requirements of its package out of the sum -/
theorem sum_unmarked_cons {marked : List String} {package : Package} (hfresh : name ∉ marked)
    (hfound : packages.find? (fun p => p.name == name) = some package) :
    ((unmarked packages (name :: marked)).map (·.requiredNames.length)).sum + package.requiredNames.length ≤
      ((unmarked packages marked).map (·.requiredNames.length)).sum := by
  have hnamed : package.name = name := by simpa using List.find?_some hfound
  have hmem : package ∈ (unmarked packages marked).filter fun p => decide ¬ p.name ≠ name := by
    simp only [unmarked, List.mem_filter]
    simp [List.mem_of_find?_eq_some hfound, hnamed, hfresh]
  have hsplit := List.sum_map_filter_add_sum_map_filter_not (fun p : Package => p.name ≠ name)
    (·.requiredNames.length) (unmarked packages marked)
  have hone : package.requiredNames.length ≤
      (((unmarked packages marked).filter fun p => decide ¬ p.name ≠ name).map (·.requiredNames.length)).sum :=
    List.le_sum_of_mem (List.mem_map_of_mem hmem)
  rw [unmarked_cons, ← hsplit]
  simpa using hone

/-- **Each turn leaves less to be done**, although a turn may put many names on the list. -/
theorem work_lt_of_turn {s t : Marking} (h : Turn packages s t) : work packages t < work packages s := by
  cases h with
  | drop htaken _ =>
    have hlength := htaken.length_eq
    simp only [work, List.length_cons] at hlength ⊢
    omega
  | mark htaken hfresh hfound =>
    have hlength := htaken.length_eq
    have hsum := sum_unmarked_cons hfresh hfound
    simp only [work, List.length_append, List.length_cons] at hlength ⊢
    omega

theorem wellFounded_turn (packages : List Package) :
    WellFounded fun after before => Turn packages before after :=
  Subrelation.wf work_lt_of_turn (InvImage.wf (work packages) Nat.lt_wfRel.wf)

/-! ## What the loop finds -/

/-- where the loop stands after some turns: what it has marked or has on its list is required, and it has missed nothing
that the manifest or a marked name requires -/
structure Explored (p : Project) (s : Marking) : Prop where
  distinct : s.marked.Nodup
  marked : ∀ name ∈ s.marked, p.Required name
  pending : ∀ name ∈ s.pending, p.Installed name → p.Required name
  roots : ∀ name ∈ p.requirements, p.Installed name → name ∈ s.marked ∨ name ∈ s.pending
  closed : ∀ name ∈ s.marked, ∀ package, p.package? name = some package →
    ∀ other ∈ package.requiredNames, p.Installed other → other ∈ s.marked ∨ other ∈ s.pending

theorem explored_start (p : Project) : p.Explored p.start where
  distinct := List.nodup_nil
  marked name hname := by cases hname
  pending name hname hinstalled := .root hname hinstalled
  roots name hname _ := .inr hname
  closed name hname := by cases hname

/-- an installed name is not lost by a turn -/
theorem kept_of_turn {s t : Marking} (h : Turn p.packages s t) (hinstalled : p.Installed name)
    (hname : name ∈ s.marked ∨ name ∈ s.pending) : name ∈ t.marked ∨ name ∈ t.pending := by
  cases h with
  | drop htaken hdropped =>
    rcases hname with hname | hname
    · exact .inl hname
    rcases List.mem_cons.1 (htaken.mem_iff.1 hname) with rfl | hrest
    · rcases hdropped with hmarked | hnone
      · exact .inl hmarked
      · exact absurd hinstalled (package?_eq_none.1 hnone)
    · exact .inr hrest
  | mark htaken hfresh hfound =>
    rcases hname with hname | hname
    · exact .inl (List.mem_cons_of_mem _ hname)
    rcases List.mem_cons.1 (htaken.mem_iff.1 hname) with rfl | hrest
    · exact .inl List.mem_cons_self
    · exact .inr (List.mem_append_right _ hrest)

/-- **What one turn preserves.** -/
theorem Explored.turn {s t : Marking} (hs : p.Explored s) (h : Turn p.packages s t) : p.Explored t := by
  have hkept : ∀ {name}, p.Installed name → name ∈ s.marked ∨ name ∈ s.pending → name ∈ t.marked ∨ name ∈ t.pending :=
    fun hinstalled => kept_of_turn h hinstalled
  have hroots : ∀ name ∈ p.requirements, p.Installed name → name ∈ t.marked ∨ name ∈ t.pending :=
    fun name hname hinstalled => hkept hinstalled (hs.roots name hname hinstalled)
  cases h with
  | drop htaken hdropped =>
    refine ⟨hs.distinct, hs.marked, ?_, hroots, ?_⟩
    · intro name hname
      exact hs.pending name (htaken.mem_iff.2 (List.mem_cons_of_mem _ hname))
    · intro name hname package hpackage other hother hinstalled
      exact hkept hinstalled (hs.closed name hname package hpackage other hother hinstalled)
  | @mark marked pending rest taken found htaken hfresh hfound =>
    have hinstalled : p.Installed taken :=
      ⟨found, List.mem_of_find?_eq_some hfound, by simpa using List.find?_some hfound⟩
    have hrequired : p.Required taken := hs.pending taken (htaken.mem_iff.2 List.mem_cons_self) hinstalled
    refine ⟨List.nodup_cons.2 ⟨hfresh, hs.distinct⟩, ?_, ?_, hroots, ?_⟩
    · intro name hname
      rcases List.mem_cons.1 hname with rfl | hname
      · exact hrequired
      · exact hs.marked name hname
    · intro name hname hinstalled
      rcases List.mem_append.1 hname with hname | hname
      · exact .next hrequired hfound hname hinstalled
      · exact hs.pending name (htaken.mem_iff.2 (List.mem_cons_of_mem _ hname)) hinstalled
    · intro name hname package hpackage other hother hinstalled
      rcases List.mem_cons.1 hname with rfl | hname
      · -- the name that is marked now: its requirements are on the list
        obtain rfl : found = package := Option.some.inj (hfound.symm.trans hpackage)
        exact .inr (List.mem_append_left _ hother)
      · exact hkept hinstalled (hs.closed name hname package hpackage other hother hinstalled)

/-- **What a run of turns preserves.** -/
theorem explored_of_turns {s : Marking} (h : Relation.ReflTransGen (Turn p.packages) p.start s) : p.Explored s := by
  induction h with
  | refl => exact explored_start p
  | tail _ hturn ih => exact ih.turn hturn

/-- when nothing is pending, the marked names are the required ones -/
theorem Explored.mem_marked_iff {s : Marking} (hs : p.Explored s) (hdone : s.pending = []) :
    name ∈ s.marked ↔ p.Required name := by
  have hmarked : ∀ {other}, other ∈ s.marked ∨ other ∈ s.pending → other ∈ s.marked := by
    intro other h
    rcases h with h | h
    · exact h
    · rw [hdone] at h
      cases h
  constructor
  · exact hs.marked name
  · intro h
    induction h with
    | root hname hinstalled => exact hmarked (hs.roots _ hname hinstalled)
    | next _ hpackage hother hinstalled ih => exact hmarked (hs.closed _ ih _ hpackage _ hother hinstalled)

/-- the names that are marked in the end -/
theorem explored_mark (p : Project) : p.Explored ⟨mark p.packages [] p.requirements, []⟩ :=
  explored_of_turns (turns_mark p.packages [] p.requirements)

theorem requiredPackages_perm (p : Project) : p.requiredPackages.Perm (mark p.packages [] p.requirements) :=
  List.mergeSort_perm _ _

theorem mem_requiredPackages_iff : name ∈ p.requiredPackages ↔ p.Required name := by
  rw [(requiredPackages_perm p).mem_iff]
  exact (explored_mark p).mem_marked_iff rfl

theorem nodup_requiredPackages (p : Project) : p.requiredPackages.Nodup :=
  (requiredPackages_perm p).nodup_iff.2 (explored_mark p).distinct

/-- the names stand in order, each once -/
theorem pairwise_requiredPackages (p : Project) : p.requiredPackages.Pairwise (· < ·) := by
  have hordered : p.requiredPackages.Pairwise fun a b => decide (a ≤ b) = true := by
    apply List.pairwise_mergeSort
    · intro a b c hab hbc
      exact decide_eq_true (String.le_trans (of_decide_eq_true hab) (of_decide_eq_true hbc))
    · intro a b
      rw [Bool.or_eq_true, decide_eq_true_eq, decide_eq_true_eq]
      exact String.le_total a b
  refine (hordered.and (nodup_requiredPackages p)).imp ?_
  rintro a b ⟨hle, hne⟩
  exact Std.lt_of_le_of_ne (of_decide_eq_true hle) hne

/-- **The required packages are the reachable ones.** They are the least set that holds the installed names that the
manifest requires and, with each name, the installed names that the first package of that name requires; they are listed in
order, each once. The loop that finds them has no endless runs, whichever of the pending names each turn takes, and every
run that cannot go on has marked just these names. -/
theorem requiredPackages_isLeast (p : Project) :
    IsLeast {names | p.Supplies names} {name | name ∈ p.requiredPackages} ∧
      p.requiredPackages.Pairwise (· < ·) ∧
      WellFounded (fun after before => Turn p.packages before after) ∧
      ∀ s, Relation.ReflTransGen (Turn p.packages) p.start s → (∀ t, ¬ Turn p.packages s t) →
        s.marked.Perm p.requiredPackages := by
  refine ⟨?_, pairwise_requiredPackages p, wellFounded_turn p.packages, ?_⟩
  · have hsame : {name | name ∈ p.requiredPackages} = {name | p.Required name} := by
      ext name
      exact mem_requiredPackages_iff
    rw [hsame]
    exact required_isLeast p
  · intro s hturns hend
    have hexplored := explored_of_turns hturns
    have hdone : s.pending = [] := by
      by_contra hpending
      obtain ⟨t, ht⟩ := exists_turn hpending
      exact hend t ht
    rw [List.perm_ext_iff_of_nodup hexplored.distinct (nodup_requiredPackages p)]
    intro name
    rw [hexplored.mem_marked_iff hdone, mem_requiredPackages_iff]

/-- a table of requirements -/
def requiring (names : List String) : Json := .object (names.map fun name => (name, .text "*"))

/-- a package that requires others -/
def dependent (name : String) (names : List String) : Package := { name, require := some (requiring names) }

/-- `a` and `b` require each other, `c` requires itself, `php` and `x` are not installed, and another `b` requires `d` -/
def entangled : Project where
  root := "/app"
  manifest := .object [("require", requiring ["php", "a"])]
  vendorDir := "/app/vendor"
  installedPath := "/app/vendor/composer/installed.json"
  installed := .bare [dependent "a" ["b", "x"], dependent "b" ["a", "c"], dependent "b" ["d"], dependent "c" ["c"],
    dependent "d" []]

/-- a run that takes the last of the pending names each time -/
theorem turns_entangled : Relation.ReflTransGen (Turn entangled.packages) entangled.start ⟨["c", "b", "a"], []⟩ := by
  have h₁ : Turn entangled.packages ⟨[], ["php", "a"]⟩ ⟨["a"], ["b", "x", "php"]⟩ :=
    @Turn.mark _ [] ["php", "a"] ["php"] "a" (dependent "a" ["b", "x"]) (by decide) (by decide) rfl
  have h₂ : Turn entangled.packages ⟨["a"], ["b", "x", "php"]⟩ ⟨["a"], ["b", "x"]⟩ :=
    @Turn.drop _ _ _ ["b", "x"] "php" (by decide) (.inr rfl)
  have h₃ : Turn entangled.packages ⟨["a"], ["b", "x"]⟩ ⟨["a"], ["b"]⟩ :=
    @Turn.drop _ _ _ ["b"] "x" (by decide) (.inr rfl)
  have h₄ : Turn entangled.packages ⟨["a"], ["b"]⟩ ⟨["b", "a"], ["a", "c"]⟩ :=
    @Turn.mark _ ["a"] ["b"] [] "b" (dependent "b" ["a", "c"]) (by decide) (by decide) rfl
  have h₅ : Turn entangled.packages ⟨["b", "a"], ["a", "c"]⟩ ⟨["c", "b", "a"], ["c", "a"]⟩ :=
    @Turn.mark _ ["b", "a"] ["a", "c"] ["a"] "c" (dependent "c" ["c"]) (by decide) (by decide) rfl
  have h₆ : Turn entangled.packages ⟨["c", "b", "a"], ["c", "a"]⟩ ⟨["c", "b", "a"], ["c"]⟩ :=
    @Turn.drop _ _ _ ["c"] "a" (by decide) (.inl (by decide))
  have h₇ : Turn entangled.packages ⟨["c", "b", "a"], ["c"]⟩ ⟨["c", "b", "a"], []⟩ :=
    @Turn.drop _ _ _ [] "c" (by decide) (.inl (by decide))
  exact .head h₁ (.head h₂ (.head h₃ (.head h₄ (.head h₅ (.head h₆ (.single h₇))))))

/-- the run cannot go on, and so these are the required packages; `d` is not among them -/
theorem requiredPackages_isLeast_sample :
    (∀ t, ¬ Turn entangled.packages ⟨["c", "b", "a"], []⟩ t) ∧ entangled.requiredPackages = ["a", "b", "c"] := by
  have hend : ∀ t, ¬ Turn entangled.packages ⟨["c", "b", "a"], []⟩ t := by
    intro t h
    cases h with
    | drop htaken _ => exact absurd htaken.length_eq (by simp)
    | mark htaken _ _ => exact absurd htaken.length_eq (by simp)
  obtain ⟨-, hordered, -, hmarked⟩ := requiredPackages_isLeast entangled
  have hperm := hmarked _ turns_entangled hend
  refine ⟨hend, List.Pairwise.eq_of_mem_iff hordered (by decide) ?_⟩
  intro name
  rw [← hperm.mem_iff]
  simp only [List.mem_cons, List.not_mem_nil, or_false]
  tauto

end Isolation.Project
