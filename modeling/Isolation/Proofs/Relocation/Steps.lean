/-
A file on disk while the directories around it are moved and files are put back, seen step by step.

With `p` the path of the prefix, a directory `s` goes to `s ++ p`, and a file `s ++ x` in it to `s ++ p ++ x`. The file
is followed as long as the other directories that are moved are neither around it nor around or inside the target.

- `Moved.away`, `Away.of_moved`: one moved directory, the one around the file or another.
- `PutBack`: what goes back from the target to the directory, and what that does to each location in it.
- `Away.step`, `Back.step`: one file put back, with this one in the target or back already.
-/
import Isolation.Proofs.Relocation.Moves

namespace Isolation

/-- there is no file -/
def Disk.NoFile (d : Disk) (l : Location) : Prop := ∀ bytes, d.get? l ≠ some (.file bytes)

/-- making directories makes no file -/
theorem Disk.Grown.noFile {d d' : Disk} {k l : Location} (hgrown : Disk.Grown k d d') (h : d.NoFile l) :
    d'.NoFile l := by
  intro bytes hfile
  cases hget : d.get? l with
  | some e =>
    rw [hgrown.keeps l e hget] at hfile
    exact h bytes (hget.trans hfile)
  | none =>
    rcases hgrown.news l hget with hnone | ⟨-, hdirectory⟩
    · cases hnone.symm.trans hfile
    · cases hdirectory.symm.trans hfile

namespace Relocator

variable {d d₁ d' : Disk} {p s t x y l g : Location} {moved : List Location} {bytes : List UInt8}

/-! ## Moving a directory -/

/-- no other directory is around the file, nor around or inside the target of `s` -/
def Clear (p l s : Location) (sources : List Location) : Prop :=
  ∀ t ∈ sources, t ≠ s → ¬ t <+: l ∧ ¬ t <+: s ++ p ∧ ¬ s ++ p <+: t

instance : Decidable (Clear p l s moved) :=
  inferInstanceAs (Decidable (∀ t ∈ moved, t ≠ s → ¬ t <+: l ∧ ¬ t <+: s ++ p ∧ ¬ s ++ p <+: t))

/-- a directory around the file is not the file, and the others leave the file and its target alone -/
def Safe (p : Location) (sources : List Location) (l : Location) : Prop :=
  ∀ s ∈ sources, s <+: l → s ≠ l ∧ Clear p l s sources

instance : Decidable (Safe p moved l) :=
  inferInstanceAs (Decidable (∀ s ∈ moved, s <+: l → s ≠ l ∧ Clear p l s moved))

/-- the file has gone with the directory, to where nothing is at a second target -/
structure Away (p s x : Location) (bytes : List UInt8) (d : Disk) : Prop where
  inside : ∀ y, d.get? (s ++ p ++ (p ++ y)) = none
  file : d.get? (s ++ p ++ x) = some (.file bytes)
  left : d.NoFile (s ++ x)

/-- **The directory is moved with the file in it.** The file was not below the target, where nothing was. -/
theorem Moved.away (ht : d.Tree) (h : Moved p s d d') (hfree : d.get? (s ++ p) = none)
    (hfile : d.get? (s ++ x) = some (.file bytes)) : ¬ p <+: x ∧ Away p s x bytes d' := by
  have hinside : ∀ y, d.get? (s ++ (p ++ y)) = none := fun y =>
    ht.none_below (List.append_assoc s p y ▸ List.prefix_append _ y) hfree
  have hpx : ¬ p <+: x := by
    rintro ⟨y, rfl⟩
    cases (hinside y).symm.trans hfile
  refine ⟨hpx, fun y => by rw [h.target, hinside], by rw [h.target, hfile], fun b hb => ?_⟩
  rcases h.emptied x hpx with hnone | hdirectory
  · cases hnone.symm.trans hb
  · cases hdirectory.symm.trans hb

/-- **Another directory is moved.** The file stays in the target. -/
theorem Away.of_moved (h : Away p s x bytes d) (hclear : ¬ t <+: s ++ x ∧ ¬ t <+: s ++ p ∧ ¬ s ++ p <+: t)
    (hmoved : Moved p t d d') : Away p s x bytes d' := by
  obtain ⟨hl, hway, hin⟩ := hclear
  have hsame : ∀ y, d'.get? (s ++ p ++ y) = d.get? (s ++ p ++ y) := by
    intro y
    refine hmoved.rest _ fun hty => ?_
    exact (List.prefix_or_prefix_of_prefix hty (List.prefix_append (s ++ p) y)).elim hway hin
  refine ⟨fun y => by rw [hsame, h.inside], by rw [hsame, h.file], fun b hb => ?_⟩
  rw [hmoved.rest _ hl] at hb
  exact h.left b hb

/-! ## Putting a file back -/

/-- what is at `x` in the target goes back to the directory; on `d₁` the way to it is there -/
structure PutBack (p s x : Location) (d d₁ d' : Disk) : Prop where
  grown : Disk.Grown (s ++ x) d d₁
  renamed : Disk.Renamed (s ++ p ++ x) (s ++ x) d₁ d'

namespace PutBack

theorem there (h : PutBack p s x d d₁ d') : (d.get? (s ++ p ++ x)).isSome = true := by
  rw [← h.grown.get?_eq h.renamed.not_inside]
  exact h.renamed.source

/-- outside the directory only the way to the file can be new -/
theorem get?_outside (h : PutBack p s x d d₁ d') (hl : ¬ s <+: l) : d'.get? l = d₁.get? l := by
  rw [h.renamed.view, if_neg fun hfront => hl ((List.prefix_append s x).trans hfront),
    if_neg fun hfront => hl (((List.prefix_append s p).trans (List.prefix_append _ x)).trans hfront)]

/-- in a directory that is neither inside nor around this one nothing changes -/
theorem get?_apart (h : PutBack p t x d d₁ d') (hst : ¬ s <+: t) (hts : ¬ t <+: s) (y : Location) :
    d'.get? (s ++ y) = d.get? (s ++ y) := by
  have hoff : ¬ t <+: s ++ y := fun hfront =>
    (List.prefix_or_prefix_of_prefix (List.prefix_append s y) hfront).elim hst hts
  have hway : ¬ s ++ y <+: t ++ x := fun hfront =>
    (List.prefix_or_prefix_of_prefix ((List.prefix_append s y).trans hfront) (List.prefix_append t x)).elim hst hts
  rw [h.get?_outside hoff, h.grown.get?_eq hway]

theorem not_around_target (h : PutBack p s x d d₁ d') : ¬ x <+: p := by
  intro hxp
  refine h.renamed.not_around ?_
  rw [List.append_assoc, List.prefix_append_right_inj]
  exact hxp.trans (List.prefix_append p x)

/-- off the target, the way back does not lead through the target -/
theorem off_way (hpx : ¬ p <+: x) (y : Location) : ¬ s ++ p ++ y <+: s ++ x := by
  rw [List.append_assoc, List.prefix_append_right_inj]
  exact fun hfront => hpx ((List.prefix_append p y).trans hfront)

/-- in the target, everything at and below it is gone -/
theorem get?_target (h : PutBack p s x d d₁ d') (hpx : ¬ p <+: x) (y : Location) :
    d'.get? (s ++ p ++ y) = if x <+: y then none else d.get? (s ++ p ++ y) := by
  have hoff : ¬ s ++ x <+: s ++ p ++ y := by
    rw [List.append_assoc, List.prefix_append_right_inj]
    exact fun hfront =>
      (List.prefix_or_prefix_of_prefix hfront (List.prefix_append p y)).elim h.not_around_target hpx
  rw [h.renamed.view, if_neg hoff]
  simp only [List.prefix_append_right_inj, h.grown.get?_eq (off_way hpx y)]

/-- at and below it, the directory has what the target had -/
theorem get?_back (h : PutBack p s x d d₁ d') (hpx : ¬ p <+: x) (z : Location) :
    d'.get? (s ++ (x ++ z)) = d.get? (s ++ p ++ (x ++ z)) := by
  rw [h.renamed.view, ← List.append_assoc s, if_pos (List.prefix_append _ z), List.drop_left, List.append_assoc _ x,
    h.grown.get?_eq (off_way hpx _)]

/-- elsewhere in the directory, outside the target, only the way to the file can be new -/
theorem get?_source (h : PutBack p s x d d₁ d') (hpy : ¬ p <+: y) (hxy : ¬ x <+: y) :
    d'.get? (s ++ y) = d₁.get? (s ++ y) := by
  have hoff : ¬ s ++ p ++ x <+: s ++ y := by
    rw [List.append_assoc, List.prefix_append_right_inj]
    exact fun hfront => hpy ((List.prefix_append p x).trans hfront)
  rw [h.renamed.view, if_neg (by rwa [List.prefix_append_right_inj]), if_neg hoff]

/-- it does not go where something is below -/
theorem free (ht : d.Tree) (h : PutBack p s x d d₁ d') {z : Location} (hz : z ≠ []) :
    d.get? (s ++ (x ++ z)) = none := by
  cases hbelow : d.get? (s ++ (x ++ z)) with
  | none => rfl
  | some e =>
    rw [← List.append_assoc] at hbelow
    have haround := h.grown.keeps _ _ (ht.directory_of_append hz hbelow)
    cases (h.renamed.free haround z hz).symm.trans (h.grown.keeps _ _ hbelow)

end PutBack

/-- What putting back the file declared at `g` does, with the directories in `moved` moved. -/
inductive Restores (p : Location) (moved : List Location) (g : Location) : Disk → Disk → Prop
  | /-- it is in none of them -/
    nothing {d : Disk} (h : ∀ s ∈ moved, ∀ x, x ≠ [] → g = s ++ x → d.get? (s ++ p ++ x) = none) :
      Restores p moved g d d
  | /-- it goes from one that it is in to where it was declared -/
    back {d d₁ d' : Disk} (s x : Location) (hs : s ∈ moved) (hx : x ≠ []) (hg : g = s ++ x)
      (hback : PutBack p s x d d₁ d') : Restores p moved g d d'

theorem Restores.tree (ht : d.Tree) (h : Restores p moved g d d') : d'.Tree := by
  cases h with
  | nothing => exact ht
  | back s x hs hx hg hback => exact hback.renamed.tree

/-- what is in no moved directory stays -/
theorem Restores.off (hl : ∀ s ∈ moved, ¬ s <+: l) (h : Restores p moved g d d') {e : Entry} (he : d.get? l = some e) :
    d'.get? l = some e := by
  cases h with
  | nothing => exact he
  | back s x hs hx hg hback =>
    rw [hback.get?_outside (hl s hs)]
    exact hback.grown.keeps l e he

/-- what is declared at `g` is the file, or a directory around it, in the directory `s` -/
def Between (s g l : Location) : Prop := s <+: g ∧ s ≠ g ∧ g <+: l

instance {s g l : Location} : Decidable (Between s g l) := inferInstanceAs (Decidable (_ ∧ _ ∧ _))

theorem between_append_iff {z : Location} : Between s (s ++ z) (s ++ x) ↔ z ≠ [] ∧ z <+: x := by
  rw [Between, List.prefix_append_right_inj, and_iff_right (List.prefix_append s z), Ne, List.self_eq_append_right]

/-- the file has been put back -/
structure Back (p s x : Location) (bytes : List UInt8) (d : Disk) : Prop where
  inside : ∀ y, d.get? (s ++ p ++ (p ++ y)) = none
  gone : d.get? (s ++ p ++ x) = none
  file : d.get? (s ++ x) = some (.file bytes)

/-- the target is as it was, and what was at `s ++ x` stays -/
structure Untouched (p s x : Location) (d d' : Disk) : Prop where
  target : ∀ y, d'.get? (s ++ p ++ y) = d.get? (s ++ p ++ y)
  keeps : ∀ e, d.get? (s ++ x) = some e → d'.get? (s ++ x) = some e
  noFile : d.NoFile (s ++ x) → d'.NoFile (s ++ x)

/-- One file put back, seen from the directory around another one: it leaves the other one alone, or comes from this
directory. -/
theorem Restores.within (hclear : Clear p (s ++ x) s moved) (hs : s ∈ moved)
    (hinside : ∀ y, d.get? (s ++ p ++ (p ++ y)) = none) (h : Restores p moved g d d') :
    Untouched p s x d d' ∧ (∀ z, Between s g (s ++ x) → g = s ++ z → d.get? (s ++ p ++ z) = none) ∨
      ∃ z d₁, z ≠ [] ∧ g = s ++ z ∧ ¬ p <+: z ∧ PutBack p s z d d₁ d' := by
  cases h with
  | nothing hnone =>
    refine .inl ⟨⟨fun y => rfl, fun e he => he, id⟩, ?_⟩
    rintro z hbetween rfl
    exact hnone s hs z (between_append_iff.1 hbetween).1 rfl
  | back t z ht hz hg hback =>
    by_cases hts : t = s
    · subst hts
      refine .inr ⟨z, _, hz, hg, ?_, hback⟩
      rintro ⟨y, rfl⟩
      have hthere := hback.there
      rw [hinside y] at hthere
      cases hthere
    · obtain ⟨hl, hway, hin⟩ := hclear t ht hts
      refine .inl ⟨⟨hback.get?_apart hin hway, fun e he => ?_, fun hno b hb => ?_⟩, fun _ hbetween _ => ?_⟩
      · rw [hback.get?_outside hl]
        exact hback.grown.keeps _ e he
      · rw [hback.get?_outside hl] at hb
        exact hback.grown.noFile hno b hb
      · exact absurd ((hg ▸ List.prefix_append t z : t <+: g).trans hbetween.2.2) hl

/-- **One file put back, with this one in the target.** It goes back if it, or a directory around it, is the one. -/
theorem Away.step (ht : d.Tree) (h : Away p s x bytes d) (hclear : Clear p (s ++ x) s moved) (hs : s ∈ moved)
    (hpx : ¬ p <+: x) (hrestores : Restores p moved g d d') :
    Away p s x bytes d' ∧ ¬ Between s g (s ++ x) ∨ Back p s x bytes d' ∧ Between s g (s ++ x) := by
  rcases hrestores.within hclear hs h.inside with ⟨hsame, hnone⟩ | ⟨z, d₁, hz, rfl, hpz, hback⟩
  · refine .inl ⟨⟨fun y => by rw [hsame.target, h.inside], by rw [hsame.target, h.file], hsame.noFile h.left⟩, ?_⟩
    intro hbetween
    obtain ⟨z, rfl⟩ := hbetween.1
    have hbelow : s ++ p ++ z <+: s ++ p ++ x := by
      rw [List.prefix_append_right_inj]
      exact (between_append_iff.1 hbetween).2
    cases (ht.none_below hbelow (hnone z hbetween rfl)).symm.trans h.file
  · have hinside : ∀ y, d'.get? (s ++ p ++ (p ++ y)) = none := fun y => by
      rw [hback.get?_target hpz, h.inside, ite_self]
    by_cases hzx : z <+: x
    · refine .inr ⟨⟨hinside, by rw [hback.get?_target hpz, if_pos hzx], ?_⟩, between_append_iff.2 ⟨hz, hzx⟩⟩
      obtain ⟨w, rfl⟩ := hzx
      rw [hback.get?_back hpz, h.file]
    · refine .inl ⟨⟨hinside, by rw [hback.get?_target hpz, if_neg hzx, h.file], fun b hb => ?_⟩,
        fun hbetween => hzx (between_append_iff.1 hbetween).2⟩
      rw [hback.get?_source hpx hzx] at hb
      exact hback.grown.noFile h.left b hb

/-- **One file put back, with this one back already.** It stays. -/
theorem Back.step (ht : d.Tree) (h : Back p s x bytes d) (hclear : Clear p (s ++ x) s moved) (hs : s ∈ moved)
    (hpx : ¬ p <+: x) (hrestores : Restores p moved g d d') : Back p s x bytes d' := by
  rcases hrestores.within hclear hs h.inside with ⟨hsame, -⟩ | ⟨z, d₁, hz, rfl, hpz, hback⟩
  · exact ⟨fun y => by rw [hsame.target, h.inside], by rw [hsame.target, h.gone], hsame.keeps _ h.file⟩
  · -- what goes back is not the file, which is no longer in the target, nor a directory around it, since it is there
    have hzx : ¬ z <+: x := by
      rintro ⟨w, rfl⟩
      by_cases hw : w = []
      · have hthere := hback.there
        rw [hw, List.append_nil] at h
        rw [h.gone] at hthere
        cases hthere
      · cases (hback.free ht hw).symm.trans h.file
    refine ⟨fun y => by rw [hback.get?_target hpz, h.inside, ite_self],
      by rw [hback.get?_target hpz, if_neg hzx, h.gone], ?_⟩
    rw [hback.get?_source hpx hzx]
    exact hback.grown.keeps _ _ h.file

end Relocator

end Isolation
