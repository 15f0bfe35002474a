/-
Where the nodes of a tree stand.

- `InRow lo hi spans`: the spans come one behind the other, from `lo` on and up to `hi`.
- `Node.Spaced`: siblings stand one behind the other inside their parent, all over a tree. This is what is asked of the
  trees of a parser.
- `SpacedIn.find?`: then a node that is found lies where the nodes lie in which it is looked for.
-/
import Isolation.Source.Node
import Mathlib.Order.Nat

namespace Isolation

/-! ## Spans in a row -/

/-- the spans come one behind the other, from `lo` on and up to `hi` -/
def InRow (lo hi : Nat) : List Span → Prop
  | [] => lo ≤ hi
  | s :: rest => lo ≤ s.start ∧ s.start ≤ s.stop ∧ InRow s.stop hi rest

namespace InRow

variable {lo mid hi : Nat} {a b spans : List Span}

theorem le (h : InRow lo hi spans) : lo ≤ hi := by
  induction spans generalizing lo with
  | nil => exact h
  | cons s rest ih =>
    obtain ⟨hstart, hspan, hrest⟩ := h
    exact hstart.trans (hspan.trans (ih hrest))

theorem lower {lo' : Nat} (h : InRow lo hi spans) (hlo : lo' ≤ lo) : InRow lo' hi spans := by
  cases spans with
  | nil => exact hlo.trans h
  | cons s rest => exact ⟨hlo.trans h.1, h.2⟩

theorem append (ha : InRow lo mid a) (hb : InRow mid hi b) : InRow lo hi (a ++ b) := by
  induction a generalizing lo with
  | nil => exact hb.lower ha
  | cons s rest ih => exact ⟨ha.1, ha.2.1, ih ha.2.2⟩

theorem raise {hi' : Nat} (h : InRow lo hi spans) (hle : hi ≤ hi') : InRow lo hi' spans := by
  have happend := h.append (b := []) hle
  rwa [List.append_nil] at happend

theorem sublist (h : InRow lo hi b) (hab : a.Sublist b) : InRow lo hi a := by
  induction hab generalizing lo with
  | slnil => exact h
  | cons s _ ih => exact ih (h.2.2.lower (h.1.trans h.2.1))
  | cons_cons s _ ih => exact ⟨h.1, h.2.1, ih h.2.2⟩

end InRow

/-! ## Nodes in a row -/

mutual

/-- the children stand inside the node, one behind the other, and so do those below them -/
def Node.Spaced : Node → Prop
  | .mk _ _ _ span children => SpacedIn span.start span.stop children

/-- nodes one behind the other, from `lo` on and up to `hi` -/
def SpacedIn (lo hi : Nat) : List Node → Prop
  | [] => lo ≤ hi
  | n :: rest => lo ≤ n.span.start ∧ n.Spaced ∧ SpacedIn n.span.stop hi rest

end

mutual

instance Node.decidableSpaced : (n : Node) → Decidable n.Spaced
  | .mk _ _ _ span children => decidableSpacedIn span.start span.stop children

instance decidableSpacedIn (lo hi : Nat) : (nodes : List Node) → Decidable (SpacedIn lo hi nodes)
  | [] => inferInstanceAs (Decidable (lo ≤ hi))
  | n :: rest =>
    have := n.decidableSpaced
    have := decidableSpacedIn n.span.stop hi rest
    inferInstanceAs (Decidable (_ ∧ _ ∧ _))

end

section Spaced

variable {lo hi : Nat} {n found : Node} {nodes more : List Node}

theorem Node.Spaced.children (h : n.Spaced) : SpacedIn n.span.start n.span.stop n.children := by
  cases n with
  | mk kind named field span children => exact h

/-- no span ends in front of its start -/
theorem SpacedIn.le : ∀ {lo hi : Nat} {nodes : List Node}, SpacedIn lo hi nodes → lo ≤ hi
  | _, _, [], h => h
  | _, _, .mk _ _ _ _ _ :: _, ⟨hlo, hnode, hrest⟩ => hlo.trans (hnode.le.trans hrest.le)

theorem Node.Spaced.le (h : n.Spaced) : n.span.start ≤ n.span.stop := h.children.le

theorem SpacedIn.lower {lo' : Nat} (h : SpacedIn lo hi nodes) (hlo : lo' ≤ lo) : SpacedIn lo' hi nodes := by
  cases nodes with
  | nil => exact hlo.trans h
  | cons n rest => exact ⟨hlo.trans h.1, h.2⟩

theorem SpacedIn.sublist (h : SpacedIn lo hi more) (hsub : nodes.Sublist more) : SpacedIn lo hi nodes := by
  induction hsub generalizing lo with
  | slnil => exact h
  | cons n _ ih => exact ih (h.2.2.lower (h.1.trans h.2.1.le))
  | cons_cons n _ ih => exact ⟨h.1, h.2.1, ih h.2.2⟩

/-- the node has its place between two offsets -/
structure Node.Within (lo hi : Nat) (n : Node) : Prop where
  start : lo ≤ n.span.start
  spaced : n.Spaced
  stop : n.span.stop ≤ hi

theorem Node.Within.widen {lo' hi' : Nat} (h : n.Within lo hi) (hlo : lo' ≤ lo) (hhi : hi ≤ hi') : n.Within lo' hi' :=
  ⟨hlo.trans h.start, h.spaced, h.stop.trans hhi⟩

theorem SpacedIn.within (h : SpacedIn lo hi nodes) (hn : n ∈ nodes) : n.Within lo hi := by
  induction nodes generalizing lo with
  | nil => cases hn
  | cons m rest ih =>
    obtain ⟨hlo, hm, hrest⟩ := h
    rcases List.mem_cons.1 hn with rfl | hn
    · exact ⟨hlo, hm, hrest.le⟩
    · exact (ih hrest hn).widen (hlo.trans hm.le) (Nat.le_refl _)

end Spaced

mutual

/-- a node that is found in a node lies in its range -/
theorem Node.Spaced.find? {p : Node → Bool} {found : Node} :
    ∀ {n : Node}, n.Spaced → n.find? p = some found → found.Within n.span.start n.span.stop
  | .mk kind named field span children, h, hfound => by
    rw [Node.find?] at hfound
    split at hfound
    · split at hfound
      · cases hfound
        exact ⟨Nat.le_refl _, h, Nat.le_refl _⟩
      · exact SpacedIn.find? h hfound
    · cases hfound

theorem SpacedIn.find? {p : Node → Bool} {found : Node} : ∀ {lo hi : Nat} {nodes : List Node},
    SpacedIn lo hi nodes → Node.findIn? p nodes = some found → found.Within lo hi
  | _, _, [], _, hfound => by cases hfound
  | lo, hi, n :: rest, ⟨hlo, hn, hrest⟩, hfound => by
    rw [Node.findIn?] at hfound
    split at hfound
    · rename_i first hfirst
      cases hfound
      exact (hn.find? hfirst).widen hlo hrest.le
    · exact (hrest.find? hfound).widen (hlo.trans hn.le) (Nat.le_refl _)

end

end Isolation
