/-
What moving a directory does to a tree.

- `Action.Ends`: an action goes through, with its result and the disk afterwards; one lemma for each way to build one.
- `moveDirectory_moved`: everything in the directory is in the target, and nothing else is touched.
-/
import Isolation.Proofs.Disk.Tree
import Isolation.Relocation

namespace Isolation

/-! ## Actions that go through -/

namespace Action

variable {α β : Type} {d d' : Disk}

/-- from `d` the action goes through with a result and the disk `d'` -/
def Ends (x : Action α) (d : Disk) (a : α) (d' : Disk) : Prop := x.run.run d = (.ok a, d')

theorem ends_pure {a b : α} : Ends (pure a) d b d' ↔ a = b ∧ d = d' := by
  rw [Ends]
  constructor
  · intro h
    cases h
    exact ⟨rfl, rfl⟩
  · rintro ⟨rfl, rfl⟩
    rfl

theorem ends_get {a : Disk} : Ends get d a d' ↔ d = a ∧ d = d' := by
  rw [Ends]
  constructor
  · intro h
    cases h
    exact ⟨rfl, rfl⟩
  · rintro ⟨rfl, rfl⟩
    rfl

theorem not_ends_throw {f : Failure} {a : α} : ¬ Ends (throw f) d a d' := by
  intro h
  cases h

theorem ends_bind {x : Action α} {f : α → Action β} {b : β} :
    Ends (x >>= f) d b d' ↔ ∃ a middle, x.Ends d a middle ∧ (f a).Ends middle b d' := by
  have hrun : (x >>= f).run.run d = match x.run.run d with
      | (.ok a, middle) => (f a).run.run middle
      | (.error e, middle) => (.error e, middle) := by
    show (ExceptT.bindCont f (x.run.run d).1).run (x.run.run d).2 = _
    rcases x.run.run d with ⟨r | r, middle⟩ <;> rfl
  rw [Ends, hrun]
  rcases hx : x.run.run d with ⟨r | a, middle⟩
  · constructor
    · intro h
      cases h
    · rintro ⟨a, middle', ha, -⟩
      rw [Ends, hx] at ha
      cases ha
  · constructor
    · exact fun h => ⟨a, middle, hx, h⟩
    · rintro ⟨a', middle', ha, h⟩
      rw [Ends, hx] at ha
      cases ha
      exact h

end Action

namespace Relocator

open Isolation.Action

variable {d d' : Disk}

theorem ends_attempt {path message : String} {change : Disk → Except SystemError Disk} :
    Ends (attempt path message change) d () d' ↔ change d = .ok d' := by
  rw [attempt, ends_bind]
  constructor
  · rintro ⟨a, middle, hget, h⟩
    obtain ⟨rfl, rfl⟩ := ends_get.1 hget
    split at h
    · rename_i changed hchange
      cases h
      exact hchange
    · cases h
  · intro h
    refine ⟨d, d, ends_get.2 ⟨rfl, rfl⟩, ?_⟩
    rw [h]
    rfl

theorem makeParent_grown {l : Location} (ht : d.Tree) (hl : PlainLocation l)
    (h : Ends (makeParent (Disk.pathOf l)) d () d') : Disk.Grown l d d' := by
  rw [makeParent] at h
  obtain rfl | ⟨front, name, rfl⟩ := List.eq_nil_or_concat l
  · obtain ⟨-, rfl⟩ := ends_pure.1 h
    exact .refl ht []
  · rw [List.concat_eq_append] at h hl ⊢
    rw [Path.parent?_pathOf hl] at h
    have hgrown := Disk.makeDirectories_grown ht hl.of_append_left (ends_attempt.1 h)
    exact hgrown.trans (List.prefix_append front [name]) (.refl hgrown.tree _)

/-! ## Moving a directory -/

theorem moveDirectory_ends {r : Relocator} {source target : String}
    (h : Ends (r.moveDirectory source target) d () d') :
    d.exists? r.staging = false ∧ ∃ d₁ d₂, d.rename source r.staging = .ok d₁ ∧ Ends (makeParent target) d₁ () d₂ ∧
      d₂.rename r.staging target = .ok d' := by
  rw [moveDirectory] at h
  obtain ⟨a, middle, hget, h⟩ := ends_bind.1 h
  obtain ⟨rfl, rfl⟩ := ends_get.1 hget
  dsimp only at h
  split at h
  · obtain ⟨_, _, hthrow, -⟩ := ends_bind.1 h
    exact absurd hthrow not_ends_throw
  · rename_i hstaging
    obtain ⟨_, d₁, hfirst, h⟩ := ends_bind.1 h
    obtain ⟨_, d₂, hparent, hlast⟩ := ends_bind.1 h
    exact ⟨by simpa using hstaging, d₁, d₂, ends_attempt.1 hfirst, hparent, ends_attempt.1 hlast⟩

/-- the location of the staging path -/
def stagingAt (r : Relocator) : Location := Disk.lexical [] (Text.splitAt '/' r.staging)

/-- what is on the way to the staging path when nothing is there: it can be reached, and it is free -/
theorem staging_free {r : Relocator} {source : String} {d₁ : Disk} (ht : d.Tree)
    (hstaging : Path.isAbsolute r.staging = true) (hfree : d.exists? r.staging = false)
    (h : d.rename source r.staging = .ok d₁) : d.get? r.stagingAt = none := by
  obtain ⟨_, _, place, -, hplace, -⟩ := Disk.rename_eq_ok h
  obtain ⟨hlocation, hlocated⟩ := Disk.locate_tree ht hstaging hplace
  rw [Disk.exists?, Disk.entryAt?, Disk.locate_follow ht hstaging, hplace] at hfree
  cases place with
  | found l e => cases hfree
  | missing l slash =>
    rw [stagingAt, ← hlocation]
    exact hlocated.1

/-- the first half of a move, to the staging path, which is neither in the directory nor around it -/
theorem moveDirectory_staged {r : Relocator} {s : Location} {target : String} (ht : d.Tree) (hs : PlainLocation s)
    (hstaging : Path.isAbsolute r.staging = true) (h : Ends (r.moveDirectory (Disk.pathOf s) target) d () d') :
    d.get? r.stagingAt = none ∧ ∃ d₁ d₂, Disk.Renamed s r.stagingAt d d₁ ∧ Ends (makeParent target) d₁ () d₂ ∧
      d₂.rename r.staging target = .ok d' := by
  obtain ⟨hfree, d₁, d₂, hfirst, hparent, hlast⟩ := moveDirectory_ends h
  have hnone := staging_free ht hstaging hfree hfirst
  have hst : s ≠ r.stagingAt := by
    rintro rfl
    obtain ⟨p', entry, place, hfound, -, -⟩ := Disk.rename_eq_ok hfirst
    obtain ⟨hlocation, hentry⟩ := Disk.locate_pathOf ht hs hfound
    rw [← hlocation] at hnone
    cases hnone.symm.trans hentry
  have hstaged :=
    Disk.renamed_of_rename ht (Disk.isAbsolute_pathOf s) hstaging (Disk.lexical_pathOf hs) rfl hst hfirst
  exact ⟨hnone, d₁, d₂, hstaged, hparent, hlast⟩

/-- what moving the directory `s` to `s ++ p` does -/
structure Moved (p s : Location) (d d' : Disk) : Prop where
  tree : d'.Tree
  /-- everything in it is in the target -/
  target : ∀ x, d'.get? (s ++ p ++ x) = d.get? (s ++ x)
  /-- outside the target, only the way to the target is left in it -/
  emptied : ∀ x, ¬ p <+: x → d'.get? (s ++ x) = none ∨ d'.get? (s ++ x) = some .directory
  /-- what is not in it is as it was -/
  rest : ∀ l, ¬ s <+: l → d'.get? l = d.get? l

/-- **A moved directory.** -/
theorem moveDirectory_moved {r : Relocator} {s p : Location} (ht : d.Tree) (hs : PlainLocation s) (hp : PlainLocation p)
    (hstaging : Path.isAbsolute r.staging = true)
    (h : Ends (r.moveDirectory (Disk.pathOf s) (Disk.pathOf (s ++ p))) d () d') : Moved p s d d' := by
  obtain ⟨hnone, d₁, d₂, hstaged, hparent, hlast⟩ := moveDirectory_staged ht hs hstaging h
  generalize hlexical : r.stagingAt = t at hnone hstaged
  -- the directories on the way to the target are not on the way to the staging path
  have hgrown := makeParent_grown hstaged.tree (hs.append hp) hparent
  have hway : ∀ {l : Location}, l <+: s ++ p → s <+: l ∨ l <+: s := fun hl =>
    List.prefix_or_prefix_of_prefix (List.prefix_append s p) hl
  have htp : t ≠ s ++ p := fun heq => hstaged.not_inside (heq ▸ List.prefix_append s p)
  have hplaced := Disk.renamed_of_rename hgrown.tree hstaging (Disk.isAbsolute_pathOf (s ++ p)) hlexical
    (Disk.lexical_pathOf (hs.append hp)) htp hlast
  refine ⟨hplaced.tree, fun x => ?_, fun x hpx => ?_, fun l hsl => ?_⟩
  · have hoff : ¬ t ++ x <+: s ++ p := by
      intro hx
      rcases hway hx with hsx | hxs
      · exact (List.prefix_or_prefix_of_prefix hsx (List.prefix_append t x)).elim hstaged.not_inside hstaged.not_around
      · exact hstaged.not_around ((List.prefix_append t x).trans hxs)
    calc d'.get? (s ++ p ++ x)
        = d₂.get? (t ++ x) := by rw [hplaced.view, if_pos (List.prefix_append _ x), List.drop_left]
      _ = d₁.get? (t ++ x) := hgrown.get?_eq hoff
      _ = d.get? (s ++ x) := by rw [hstaged.view, if_pos (List.prefix_append t x), List.drop_left]
  · rw [hplaced.view, if_neg (by rwa [List.prefix_append_right_inj])]
    by_cases htx : t <+: s ++ x
    · exact .inl (if_pos htx)
    · have hgone : d₁.get? (s ++ x) = none := by rw [hstaged.view, if_neg htx, if_pos (List.prefix_append s x)]
      rw [if_neg htx]
      exact (hgrown.news _ hgone).imp_right And.right
  · have htarget : ¬ s ++ p <+: l := fun hl => hsl ((List.prefix_append s p).trans hl)
    have hstay : ¬ t <+: l → d₁.get? l = d.get? l := fun htl => by rw [hstaged.view, if_neg htl, if_neg hsl]
    rw [hplaced.view, if_neg htarget]
    by_cases htl : t <+: l
    · rw [if_pos htl, ht.none_below htl hnone]
    rw [if_neg htl]
    by_cases hls : l <+: s
    · -- around the directory there are directories
      obtain ⟨e, he⟩ := Option.isSome_iff_exists.1 hstaged.source
      have hdirectory := ht.directory_above hls (fun heq => hsl (heq ▸ List.prefix_refl l)) he
      rw [hdirectory]
      exact hgrown.keeps l _ ((hstay htl).trans hdirectory)
    · rw [hgrown.get?_eq fun hl => (hway hl).elim hsl hls, hstay htl]

end Relocator

end Isolation
