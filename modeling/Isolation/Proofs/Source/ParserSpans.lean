/-
The trees of the library's own parser are spaced.

- `EnclosedIn`: trees one behind the other that enclose what is inside them, those aside that took no bytes.
- `Pattern.run_covers`: what a run takes is at the front of the tokens, and the trees it gives are enclosed between the
  first token taken and the last, whatever the grammar.
- `Php.parser_spaced`: so the nodes of an accepted file are spaced.
-/
import Isolation.Proofs.Source.TokenSpans
import Isolation.Source.PhpTree

namespace Isolation

variable {ρ κ : Type}

/-! ## Trees one behind the other -/

mutual

/-- the trees inside stand between the ends of the tree -/
def ParseTree.Enclosing : ParseTree κ → Prop
  | .node _ span children => EnclosedIn span.start span.stop children

/-- The trees come one behind the other, from `lo` on and up to `hi`, and each encloses those inside it. A tree that took no
bytes does not count: it stands in front of the next token, which may be behind the end of the tree around it. -/
def EnclosedIn (lo hi : Nat) : List (ParseTree κ) → Prop
  | [] => lo ≤ hi
  | t :: rest =>
    if t.span.start = t.span.stop then EnclosedIn lo hi rest
    else lo ≤ t.span.start ∧ t.Enclosing ∧ EnclosedIn t.span.stop hi rest

end

section Enclosed

variable {lo mid hi : Nat} {kind : κ} {span : Span} {a b children rest trees : List (ParseTree κ)}

theorem enclosedIn_cons_of_empty (hempty : span.start = span.stop) :
    EnclosedIn lo hi (.node kind span children :: rest) ↔ EnclosedIn lo hi rest := by
  rw [EnclosedIn, if_pos (by exact hempty)]

theorem enclosedIn_cons (hempty : ¬ span.start = span.stop) : EnclosedIn lo hi (.node kind span children :: rest) ↔
    lo ≤ span.start ∧ EnclosedIn span.start span.stop children ∧ EnclosedIn span.stop hi rest := by
  rw [EnclosedIn, if_neg (by exact hempty), ParseTree.Enclosing]
  rfl

theorem EnclosedIn.le : ∀ {lo hi : Nat} {trees : List (ParseTree κ)}, EnclosedIn lo hi trees → lo ≤ hi
  | _, _, [], h => h
  | _, _, .node kind span children :: _, h => by
    by_cases hempty : span.start = span.stop
    · exact ((enclosedIn_cons_of_empty hempty).1 h).le
    · obtain ⟨hlo, hinside, hrest⟩ := (enclosedIn_cons hempty).1 h
      exact hlo.trans (hinside.le.trans hrest.le)

theorem EnclosedIn.lower {lo' : Nat} (h : EnclosedIn lo hi trees) (hlo : lo' ≤ lo) : EnclosedIn lo' hi trees := by
  induction trees with
  | nil => exact hlo.trans h
  | cons t rest ih =>
    obtain ⟨kind, span, children⟩ := t
    by_cases hempty : span.start = span.stop
    · rw [enclosedIn_cons_of_empty hempty] at h ⊢
      exact ih h
    · rw [enclosedIn_cons hempty] at h ⊢
      exact ⟨hlo.trans h.1, h.2⟩

theorem EnclosedIn.append (ha : EnclosedIn lo mid a) (hb : EnclosedIn mid hi b) : EnclosedIn lo hi (a ++ b) := by
  induction a generalizing lo with
  | nil => exact hb.lower ha
  | cons t rest ih =>
    obtain ⟨kind, span, children⟩ := t
    rw [List.cons_append]
    by_cases hempty : span.start = span.stop
    · rw [enclosedIn_cons_of_empty hempty] at ha ⊢
      exact ih ha
    · rw [enclosedIn_cons hempty] at ha ⊢
      exact ⟨ha.1, ha.2.1, ih ha.2.2⟩

theorem EnclosedIn.raise {hi' : Nat} (h : EnclosedIn lo hi trees) (hle : hi ≤ hi') : EnclosedIn lo hi' trees := by
  have happend := h.append (b := []) hle
  rwa [List.append_nil] at happend

/-- trees that took no bytes have room everywhere -/
theorem enclosedIn_of_empty (h : ∀ t ∈ trees, t.span.start = t.span.stop) (hle : lo ≤ hi) : EnclosedIn lo hi trees := by
  induction trees with
  | nil => exact hle
  | cons t rest ih =>
    rw [List.forall_mem_cons] at h
    obtain ⟨kind, span, children⟩ := t
    exact (enclosedIn_cons_of_empty h.1).2 (ih h.2)

theorem enclosedIn_singleton (kind : κ) (h : EnclosedIn lo hi children) :
    EnclosedIn lo hi [.node kind ⟨lo, hi⟩ children] := by
  by_cases hempty : lo = hi
  · exact (enclosedIn_cons_of_empty hempty).2 h.le
  · exact (enclosedIn_cons hempty).2 ⟨Nat.le_refl _, h, Nat.le_refl _⟩

end Enclosed

/-! ## Tokens in order -/

/-- the tokens come one behind the other, and end at `hi` or before -/
def Ordered (hi : Nat) (ts : List Token) : Prop := ∃ lo, InRow lo hi (ts.map Token.span)

section Ordered

variable {hi : Nat} {ts rest : List Token} {t : Token}

theorem Ordered.of_suffix (h : Ordered hi ts) (hrest : rest <:+ ts) : Ordered hi rest := by
  obtain ⟨lo, hrow⟩ := h
  exact ⟨lo, hrow.sublist (hrest.sublist.map _)⟩

theorem Ordered.tail (h : Ordered hi (t :: rest)) : Ordered hi rest := h.of_suffix (List.suffix_cons t rest)

theorem Ordered.span (h : Ordered hi (t :: rest)) : t.span.start ≤ t.span.stop ∧ t.span.stop ≤ hi := by
  obtain ⟨lo, -, hspan, hrest⟩ := h
  exact ⟨hspan, hrest.le⟩

/-- a token ends in front of the next one -/
theorem Ordered.next (h : Ordered hi (t :: rest)) (hne : rest ≠ []) : t.span.stop ≤ Pattern.startOf rest := by
  obtain ⟨lo, -, -, hrest⟩ := h
  cases rest with
  | nil => exact absurd rfl hne
  | cons u more => exact hrest.1

end Ordered

/-! ## Names -/

/-- what was read from the front of some tokens: it starts with the first of them, ends in front of the next, and in front
of `hi` -/
structure TakenUpTo (hi : Nat) (ts : List Token) (stop : Nat) (rest : List Token) : Prop where
  suffix : rest <:+ ts
  start : Pattern.startOf ts ≤ stop
  le : stop ≤ hi
  next : rest ≠ [] → stop ≤ Pattern.startOf rest

theorem Ordered.takenUpTo {hi : Nat} {t : Token} {rest : List Token} (h : Ordered hi (t :: rest)) :
    TakenUpTo hi (t :: rest) t.span.stop rest :=
  ⟨List.suffix_cons t rest, h.span.1, h.span.2, h.next⟩

/-- what was read further on starts later -/
theorem TakenUpTo.behind {hi stop : Nat} {t : Token} {ts rest : List Token} (h : Ordered hi (t :: ts)) (hne : ts ≠ [])
    (htaken : TakenUpTo hi ts stop rest) : TakenUpTo hi (t :: ts) stop rest :=
  ⟨htaken.suffix.trans (List.suffix_cons t ts), h.span.1.trans ((h.next hne).trans htaken.start), htaken.le,
    htaken.next⟩

/-- more segments are read behind the first one -/
theorem moreSegments_taken (separated : Bool) {hi stop : Nat} {ts all : List Token} (h : Ordered hi ts)
    (htaken : TakenUpTo hi all stop ts) :
    TakenUpTo hi all (moreSegments separated stop ts).stop (moreSegments separated stop ts).rest := by
  fun_induction moreSegments separated stop ts with
  | case1 separated stop s w rest _ ih =>
    refine ih h.tail.tail ⟨?_, ?_, h.tail.span.2, h.tail.next⟩
    · exact ((List.suffix_cons w rest).trans (List.suffix_cons s (w :: rest))).trans htaken.suffix
    · have hfirst := h.takenUpTo.start
      have hword := h.tail.takenUpTo.start
      have hbefore := htaken.next (List.cons_ne_nil s _)
      have hnext : s.span.stop ≤ w.span.start := h.next (List.cons_ne_nil w rest)
      exact htaken.start.trans (hbefore.trans (hfirst.trans (hnext.trans hword)))
  | case2 => exact htaken
  | case3 => exact htaken

/-- a name is taken from the front of the tokens -/
theorem NameForm.read?_taken {form : NameForm} {hi : Nat} {ts : List Token} {read : NameRead} (h : Ordered hi ts)
    (hread : form.read? ts = some read) : ts ≠ [] ∧ TakenUpTo hi ts read.stop read.rest := by
  cases ts with
  | nil => cases hread
  | cons t rest =>
    refine ⟨List.cons_ne_nil t rest, ?_⟩
    rw [NameForm.read?.eq_def] at hread
    dsimp only at hread
    split at hread
    · cases rest with
      | nil => cases hread
      | cons w more =>
        dsimp only at hread
        split at hread
        · cases hread
          exact (moreSegments_taken true h.tail.tail h.tail.takenUpTo).behind h (List.cons_ne_nil w more)
        · cases hread
    · split at hread
      · split at hread
        · cases hread
        · cases hread
          exact moreSegments_taken false h.tail h.takenUpTo
      · cases hread

namespace Pattern

/-! ## Runs one by one -/

section Inversion

variable {rules : ρ → Pattern ρ κ} {depth : Nat} {ts : List Token} {r : Result κ}

theorem run_one {test : TokenTest} (h : run rules depth (one test) ts = some r) :
    ∃ t rest, ts = t :: rest ∧ test.holds t = true ∧ r = ⟨[], rest, some t.span.stop⟩ := by
  match depth, ts with
  | 0, _ => simp [run] at h
  | _ + 1, [] => simp [run] at h
  | _ + 1, t :: rest =>
    simp only [run, Option.ite_none_right_eq_some, Option.some.injEq] at h
    exact ⟨t, rest, rfl, h.1, h.2.symm⟩

theorem run_closed {expected : Bool} (h : run rules depth (closed expected) ts = some r) :
    ∃ t rest, ts = t :: rest ∧ t.afterClose = expected ∧ r = ⟨[], ts, none⟩ := by
  match depth, ts with
  | 0, _ => simp [run] at h
  | _ + 1, [] => simp [run] at h
  | _ + 1, t :: rest =>
    simp only [run, Option.ite_none_right_eq_some, Option.some.injEq, beq_iff_eq] at h
    exact ⟨t, rest, rfl, h.1, h.2.symm⟩

theorem run_seq {p q : Pattern ρ κ} (h : run rules (depth + 1) (seq p q) ts = some r) :
    ∃ a b, run rules depth p ts = some a ∧ run rules depth q a.rest = some b ∧ r = a.followedBy b := by
  simp only [run] at h
  split at h
  · cases h
  · rename_i a ha
    obtain ⟨b, hb, hr⟩ := Option.map_eq_some_iff.1 h
    exact ⟨a, b, ha, hb, hr.symm⟩

theorem run_loop {guard : Guard} {p : Pattern ρ κ} (h : run rules (depth + 1) (loop guard p) ts = some r) :
    (guard.holds ts = false ∧ r = ⟨[], ts, none⟩) ∨
    (guard.holds ts = true ∧ ∃ a b, run rules depth p ts = some a ∧ run rules depth (loop guard p) a.rest = some b ∧
      r = a.followedBy b) := by
  simp only [run] at h
  split at h
  · rename_i hguard
    split at h
    · cases h
    · rename_i a ha
      obtain ⟨b, hb, hr⟩ := Option.map_eq_some_iff.1 h
      exact .inr ⟨hguard, a, b, ha, hb, hr.symm⟩
  · rename_i hguard
    exact .inl ⟨by simpa using hguard, (Option.some.inj h).symm⟩

theorem run_upTo {stop : TokenTest} {p q : Pattern ρ κ} (h : run rules (depth + 1) (upTo stop p q) ts = some r) :
    (passes [stop] ts = true ∧ run rules depth q ts = some r) ∨
    (passes [stop] ts = false ∧ ∃ a b, run rules depth p ts = some a ∧
      run rules depth (upTo stop p q) a.rest = some b ∧ r = a.followedBy b) := by
  simp only [run] at h
  split at h
  · rename_i hstop
    exact .inl ⟨hstop, h⟩
  · rename_i hstop
    split at h
    · cases h
    · rename_i a ha
      obtain ⟨b, hb, hr⟩ := Option.map_eq_some_iff.1 h
      exact .inr ⟨by simpa using hstop, a, b, ha, hb, hr.symm⟩

theorem run_mark {kind : κ} {p : Pattern ρ κ} (h : run rules (depth + 1) (mark kind p) ts = some r) :
    ∃ a, run rules depth p ts = some a ∧
      r = ⟨[.node kind ⟨startOf ts, a.stop?.getD (startOf ts)⟩ a.trees], a.rest, a.stop?⟩ := by
  simp only [run] at h
  obtain ⟨a, ha, hr⟩ := Option.map_eq_some_iff.1 h
  exact ⟨a, ha, hr.symm⟩

/-- the nodes of a name: none for a single word where the form asks for that -/
def nameTrees (kind : κ) (form : NameForm) (ts : List Token) (read : NameRead) : List (ParseTree κ) :=
  if form.alone && !read.separated then [] else [.node kind ⟨startOf ts, read.stop⟩ []]

theorem run_name {kind : κ} {form : NameForm} (h : run rules depth (name kind form) ts = some r) :
    ∃ read, form.read? ts = some read ∧ passes form.behind read.rest = true ∧
      r = ⟨nameTrees kind form ts read, read.rest, some read.stop⟩ := by
  match depth with
  | 0 => simp [run] at h
  | _ + 1 =>
    simp only [run, runName] at h
    split at h
    · cases h
    · rename_i read hread
      simp only [Option.ite_none_right_eq_some, Option.some.injEq] at h
      exact ⟨read, hread, h.1, h.2.symm⟩

end Inversion

/-! ## Trees in the order of the tokens -/

/-- A run takes no tokens and gives trees that took no bytes, or it takes tokens from the front and gives trees between the
first of them and the end of the last. -/
inductive Covers (hi : Nat) (ts : List Token) : Result κ → Prop where
  | nothing {trees : List (ParseTree κ)} (hempty : ∀ t ∈ trees, t.span.start = t.span.stop) :
      Covers hi ts ⟨trees, ts, none⟩
  | some {trees : List (ParseTree κ)} {rest : List Token} {stop : Nat} (hne : ts ≠ [])
      (htaken : TakenUpTo hi ts stop rest) (htrees : EnclosedIn (startOf ts) stop trees) :
      Covers hi ts ⟨trees, rest, some stop⟩

section Covers

variable {hi : Nat} {ts : List Token} {a b r : Result κ}

theorem Covers.suffix (h : Covers hi ts r) : r.rest <:+ ts := by
  cases h with
  | nothing _ => exact List.suffix_rfl
  | some _ htaken _ => exact htaken.suffix

theorem Covers.followedBy (ha : Covers hi ts a) (hb : Covers hi a.rest b) : Covers hi ts (a.followedBy b) := by
  cases ha with
  | nothing hempty =>
    cases hb with
    | nothing hempty' => exact .nothing fun t ht => (List.mem_append.1 ht).elim (hempty t) (hempty' t)
    | some hne htaken htrees => exact .some hne htaken ((enclosedIn_of_empty hempty (Nat.le_refl _)).append htrees)
  | some hne htaken htrees =>
    cases hb with
    | nothing hempty => exact .some hne htaken (htrees.append (enclosedIn_of_empty hempty (Nat.le_refl _)))
    | some hne' htaken' htrees' =>
      have hbehind := htaken.next hne'
      refine .some hne ⟨htaken'.suffix.trans htaken.suffix, ?_, htaken'.le, htaken'.next⟩
        (htrees.append (htrees'.lower hbehind))
      exact htaken.start.trans (hbehind.trans htaken'.start)

theorem Covers.mark (kind : κ) (ha : Covers hi ts a) :
    Covers hi ts ⟨[.node kind ⟨startOf ts, a.stop?.getD (startOf ts)⟩ a.trees], a.rest, a.stop?⟩ := by
  cases ha with
  | nothing _ =>
    refine .nothing fun t ht => ?_
    obtain rfl := List.mem_singleton.1 ht
    rfl
  | some hne htaken htrees => exact .some hne htaken (enclosedIn_singleton kind htrees)

end Covers

/-- **Trees come in the order of the tokens**, in a run of any pattern. -/
theorem run_covers {rules : ρ → Pattern ρ κ} {depth hi : Nat} {p : Pattern ρ κ} {ts : List Token} {r : Result κ}
    (hts : Ordered hi ts) (h : run rules depth p ts = some r) : Covers hi ts r := by
  induction depth generalizing p ts r with
  | zero => simp [run] at h
  | succ depth ih =>
    have hnothing : Covers hi ts (⟨[], ts, none⟩ : Result κ) := .nothing fun t ht => by cases ht
    have hfollowed : ∀ {q : Pattern ρ κ} {a b : Result κ}, Covers hi ts a → run rules depth q a.rest = some b →
        Covers hi ts (a.followedBy b) := fun ha hb => ha.followedBy (ih (hts.of_suffix ha.suffix) hb)
    cases p with
    | done =>
      obtain rfl := Option.some.inj h
      exact hnothing
    | one test =>
      obtain ⟨t, rest, rfl, -, rfl⟩ := run_one h
      exact .some (List.cons_ne_nil t rest) hts.takenUpTo hts.span.1
    | closed expected =>
      obtain ⟨-, -, -, -, rfl⟩ := run_closed h
      exact hnothing
    | rule r => exact ih hts h
    | seq p q =>
      obtain ⟨a, b, ha, hb, rfl⟩ := run_seq h
      exact hfollowed (ih hts ha) hb
    | branch guard p q =>
      simp only [run] at h
      split at h <;> exact ih hts h
    | loop guard p =>
      rcases run_loop h with ⟨-, rfl⟩ | ⟨-, a, b, ha, hb, rfl⟩
      · exact hnothing
      · exact hfollowed (ih hts ha) hb
    | upTo stop p q =>
      rcases run_upTo h with ⟨-, hlast⟩ | ⟨-, a, b, ha, hb, rfl⟩
      · exact ih hts hlast
      · exact hfollowed (ih hts ha) hb
    | name kind form =>
      obtain ⟨read, hread, -, rfl⟩ := run_name h
      obtain ⟨hne, htaken⟩ := form.read?_taken hts hread
      refine .some hne htaken ?_
      rw [nameTrees]
      split
      · exact htaken.start
      · exact enclosedIn_singleton kind htaken.start
    | mark kind p =>
      obtain ⟨a, ha, rfl⟩ := run_mark h
      exact (ih hts ha).mark kind

end Pattern

namespace Php

/-! ## Settled trees -/

/-- settling changes the mark of a tree at most -/
theorem settleTree_eq_some {target : Bool} {mark : Mark} {span : Span} {children : List Tree} {t' : Tree}
    (h : settleTree target (.node mark span children) = some t') :
    ∃ mark' inner children', settleTrees inner children = some children' ∧ t' = .node mark' span children' := by
  have hmap : ∀ {mark' : Mark} {inner : Bool}, (settleTrees inner children).map (ParseTree.node mark' span) = some t' →
      ∃ mark' inner children', settleTrees inner children = some children' ∧ t' = .node mark' span children' := by
    intro mark' inner hsettled
    obtain ⟨children', hchildren, rfl⟩ := Option.map_eq_some_iff.1 hsettled
    exact ⟨mark', inner, children', hchildren, rfl⟩
  cases mark with
  | array =>
    rw [settleTree] at h
    split at h
    · exact hmap h
    · split at h
      · cases h
      · exact hmap h
  | list =>
    rw [settleTree] at h
    split at h
    · exact hmap h
    · cases h
  | _ => exact hmap h

theorem settleTrees_cons {target : Bool} {t : Tree} {rest trees' : List Tree}
    (h : settleTrees target (t :: rest) = some trees') :
    ∃ inner t' rest', settleTree inner t = some t' ∧ settleTrees target rest = some rest' ∧ trees' = t' :: rest' := by
  rw [settleTrees] at h
  split at h
  · cases h
  · rename_i t' ht
    split at h
    · cases h
    · rename_i rest' hrest
      cases h
      exact ⟨_, t', rest', ht, hrest, rfl⟩

/-- settling moves no tree -/
theorem enclosedIn_settleTrees {target : Bool} : ∀ {lo hi : Nat} {ts ts' : List Tree},
    settleTrees target ts = some ts' → EnclosedIn lo hi ts → EnclosedIn lo hi ts'
  | _, _, [], _, h, henclosed => by
    cases h
    exact henclosed
  | _, _, .node _ span children :: _, _, h, henclosed => by
    obtain ⟨inner, t', rest', ht, hrest, rfl⟩ := settleTrees_cons h
    obtain ⟨mark', inner', children', hchildren, rfl⟩ := settleTree_eq_some ht
    by_cases hempty : span.start = span.stop
    · exact (enclosedIn_cons_of_empty hempty).2
        (enclosedIn_settleTrees hrest ((enclosedIn_cons_of_empty hempty).1 henclosed))
    · obtain ⟨hlo, hinside, hmore⟩ := (enclosedIn_cons hempty).1 henclosed
      exact (enclosedIn_cons hempty).2 ⟨hlo, enclosedIn_settleTrees hchildren hinside, enclosedIn_settleTrees hrest hmore⟩

/-! ## Nodes -/

/-- the nodes of enclosed trees are spaced -/
theorem spacedIn_nodesOf : ∀ {lo hi : Nat} {trees : List Tree}, EnclosedIn lo hi trees → SpacedIn lo hi (nodesOf trees)
  | _, _, [], h => h
  | _, _, .node mark span children :: rest, h => by
    rw [nodesOf]
    split
    · rename_i hempty
      exact spacedIn_nodesOf ((enclosedIn_cons_of_empty hempty).1 h)
    · rename_i hempty
      obtain ⟨hlo, hinside, hrest⟩ := (enclosedIn_cons hempty).1 h
      exact ⟨hlo, spacedIn_nodesOf hinside, spacedIn_nodesOf hrest⟩

/-- **The library's own parser spaces its nodes**: siblings stand one behind the other, inside their parent. -/
theorem parser_spaced {source : List UInt8} {root : Node} (h : parser source = some root) : root.Spaced := by
  obtain ⟨trees, htrees, rfl⟩ := Option.map_eq_some_iff.1 h
  rw [tree?] at htrees
  split at htrees
  · cases htrees
  rename_i ts hts
  split at htrees
  · cases htrees
  rename_i result hresult
  have hcovers := Pattern.run_covers ⟨0, Lexer.lex?_inRow hts⟩ hresult
  have henclosed : EnclosedIn 0 source.length result.trees := by
    cases hcovers with
    | nothing hempty => exact enclosedIn_of_empty hempty (Nat.zero_le _)
    | some _ htaken hinside => exact (hinside.lower (Nat.zero_le _)).raise htaken.le
  exact spacedIn_nodesOf (enclosedIn_settleTrees htrees henclosed)

end Php

end Isolation
