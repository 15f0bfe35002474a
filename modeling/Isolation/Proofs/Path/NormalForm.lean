/-
Paths in normal form. The pieces of a path are steps, up or down to a name, which are taken on a stack: a name goes on top,
and `..` takes the name on top away. Where there is none, `..` stays itself, unless the root is below it.

- `stacked_stack`: the stack of a path holds names on the root, or names on a row of `..`.
- `components_normalize`: the components of a normalized path are its stack, from the bottom.
- `stack_normalize`: a normalized path has the stack it was made from, so it can stand for the path in front of any other.
- `stack_join`: what is joined to a path is taken on the stack of the path.
- `reached_normalize`, `Stacked.eq_of_leads`: a path and its normal form lead to the same place from everywhere, and normal
  forms that do so are the same.
- `normalize_normal_form`: all of it about the texts of paths.
-/
import Isolation.Proofs.Disk.Tree
import Mathlib.Data.Fintype.EquivFin

namespace Isolation.Path

variable {absolute absolute' : Bool} {s s' cs : List Component} {c : Component} {here : Location} {p : String}

/-! ## Paths as stacks -/

/-- the steps of a path: a piece that is empty or `.` makes none -/
def steps (p : String) : List Component := (Text.splitAt '/' p).filterMap piece?

/-- where the steps of a path start -/
def bottom (p : String) : List Component := if isAbsolute p then [.root] else []

/-- the normal form of a path, its last component first -/
def stack (p : String) : List Component := (steps p).foldl normalizeStep (bottom p)

theorem isStep_of_mem_steps (h : c ∈ steps p) : IsStep c := isStep_of_piece h

theorem stacked_bottom (p : String) : Stacked (isAbsolute p) (bottom p) := by
  refine ⟨[], 0, fun _ hn => absurd hn List.not_mem_nil, ?_⟩
  cases h : isAbsolute p <;> simp [bottom, h]

theorem stacked_stack (p : String) : Stacked (isAbsolute p) (stack p) :=
  (stacked_bottom p).run fun _ => isStep_of_mem_steps

/-- a leading `.` is a component and no step -/
theorem normalizeComponents_components (p : String) : normalizeComponents (components p) = (stack p).reverse := by
  unfold normalizeComponents components stack bottom steps
  by_cases habsolute : isAbsolute p = true
  · simp only [habsolute, if_true]
    rfl
  · simp only [habsolute, if_false, Bool.false_eq_true]
    split
    · rename_i hdot
      obtain ⟨rest, hrest⟩ := List.head?_eq_some_iff.1 hdot
      have hnone : piece? "." = none := by decide
      rw [hrest, List.drop_one, List.tail_cons, List.filterMap_cons_none hnone]
      rfl
    · rfl

/-- normal forms are made by their own steps -/
theorem Stacked.replay (h : Stacked absolute s) : s.reverse.foldl normalizeStep [] = s := by
  obtain ⟨names, ups, -, rfl⟩ := h
  have hnames : ∀ (l : Location) (below : List Component),
      (l.map Component.normal).foldl normalizeStep below = (l.map Component.normal).reverse ++ below := by
    intro l
    induction l with
    | nil => exact fun _ => rfl
    | cons name rest ih =>
      intro below
      rw [List.map_cons, List.foldl_cons, ih, List.reverse_cons, List.append_assoc]
      rfl
  have hups : ∀ n, (List.replicate n Component.parent).foldl normalizeStep [] = List.replicate n .parent := by
    intro n
    induction n with
    | zero => rfl
    | succ n ih =>
      rw [List.replicate_succ', List.foldl_append, ih, ← List.replicate_succ']
      cases n <;> simp [normalizeStep, List.replicate_succ]
  rw [List.reverse_append, List.foldl_append, ← List.map_reverse, hnames, ← List.map_reverse, List.reverse_reverse]
  cases absolute with
  | true => rfl
  | false =>
    simp only [Bool.false_eq_true, if_false, List.reverse_replicate]
    rw [hups]

/-! ## Texts of normal forms -/

theorem IsStep.text_ne (h : IsStep c) : render.text c ≠ "" ∧ render.text c ≠ "." := by
  rcases h with rfl | ⟨name, rfl, hname⟩
  · decide
  · exact ⟨hname.ne_empty, hname.ne_dot⟩

theorem IsStep.no_slash (h : IsStep c) : '/' ∉ (render.text c).toList := by
  rcases h with rfl | ⟨name, rfl, hname⟩
  · decide
  · exact hname.no_slash

theorem IsStep.piece?_text (h : IsStep c) : piece? (render.text c) = some c := by
  rcases h with rfl | ⟨name, rfl, hname⟩
  · decide
  · exact piece?_plain hname

/-- a row of steps is written and read back as a relative path -/
theorem components_steps (h : ∀ c ∈ cs, IsStep c) : components (render cs) = cs ∧ isAbsolute (render cs) = false := by
  match cs with
  | [] => decide
  | c :: rest =>
    have htext : render (c :: rest) = Text.joinWith '/' ((c :: rest).map render.text) := by
      rcases h c List.mem_cons_self with rfl | ⟨name, rfl, -⟩ <;> rfl
    generalize c :: rest = cs at h htext
    have hslash : ∀ piece ∈ cs.map render.text, '/' ∉ piece.toList := by
      intro piece hpiece
      obtain ⟨c, hc, rfl⟩ := List.mem_map.1 hpiece
      exact (h c hc).no_slash
    have hfilled : ∀ piece ∈ cs.map render.text, piece ≠ "" ∧ piece ≠ "." := by
      intro piece hpiece
      obtain ⟨c, hc, rfl⟩ := List.mem_map.1 hpiece
      exact (h c hc).text_ne
    have hrelative : isAbsolute (render cs) = false := by
      rw [htext]
      exact not_isAbsolute_joinWith hslash fun hempty => (hfilled "" hempty).1 rfl
    refine ⟨?_, hrelative⟩
    by_cases hnil : cs = []
    · subst hnil
      decide
    · have hpieces : Text.splitAt '/' (render cs) = cs.map render.text := by
        rw [htext]
        exact splitAt_joinWith hslash (by simpa using hnil)
      have hdot : (cs.map render.text).head? ≠ some "." := fun hhead =>
        (hfilled "." (List.mem_of_head? hhead)).2 rfl
      have hread : (cs.map render.text).filterMap piece? = cs := by
        rw [List.filterMap_map]
        calc cs.filterMap (piece? ∘ render.text)
            = cs.filterMap some := List.filterMap_congr fun c hc => (h c hc).piece?_text
          _ = cs := List.filterMap_some
      rw [components, hrelative, hpieces, if_neg Bool.false_ne_true, if_neg hdot, hread]

theorem Stacked.components_render (h : Stacked absolute s) :
    components (render s.reverse) = s.reverse ∧ isAbsolute (render s.reverse) = absolute := by
  obtain ⟨names, ups, hnames, rfl⟩ := h
  have hreversed : PlainLocation names.reverse := fun n hn => hnames n (List.mem_reverse.1 hn)
  rw [List.reverse_append, ← List.map_reverse]
  cases absolute with
  | true =>
    rw [if_pos rfl, List.reverse_singleton, List.singleton_append, render_root]
    exact ⟨components_pathOf hreversed, Disk.isAbsolute_pathOf _⟩
  | false =>
    rw [if_neg Bool.false_ne_true, List.reverse_replicate]
    apply components_steps
    intro c hc
    rcases List.mem_append.1 hc with hc | hc
    · exact .inl (List.eq_of_mem_replicate hc)
    · obtain ⟨name, hname, rfl⟩ := List.mem_map.1 hc
      exact .inr ⟨name, rfl, hreversed name hname⟩

theorem normalize_eq_render (p : String) : normalize p = render (stack p).reverse := by
  rw [normalize, normalizeComponents_components]

theorem components_normalize (p : String) : components (normalize p) = (stack p).reverse := by
  rw [normalize_eq_render]
  exact (stacked_stack p).components_render.1

theorem isAbsolute_normalize (p : String) : isAbsolute (normalize p) = isAbsolute p := by
  rw [normalize_eq_render]
  exact (stacked_stack p).components_render.2

/-- **A normal form is a faithful state**: it has the stack of the path it was made from. -/
theorem stack_normalize (p : String) : stack (normalize p) = stack p := by
  apply List.reverse_injective
  calc (stack (normalize p)).reverse
      = normalizeComponents (components (normalize p)) := (normalizeComponents_components _).symm
    _ = normalizeComponents (stack p).reverse := by rw [components_normalize]
    _ = (stack p).reverse := congrArg List.reverse (stacked_stack p).replay

/-! ## Joins -/

theorem steps_append (p q : String) : steps (p ++ "/" ++ q) = steps p ++ steps q := by
  have hcut : (p ++ "/" ++ q).toList = p.toList ++ '/' :: q.toList := by simp
  rw [steps, Text.splitAt, hcut, List.splitOn_append_cons_self, List.map_append, List.filterMap_append]
  rfl

theorem isAbsolute_append (hp : p ≠ "") (q : String) : isAbsolute (p ++ q) = isAbsolute p := by
  obtain ⟨first, rest, hfirst⟩ := List.exists_cons_of_ne_nil (l := p.toList) (by simpa using hp)
  simp [isAbsolute, Text.startsWith, hfirst, List.isPrefixOf]

/-- **What is joined to a path is taken on its stack.** -/
theorem stack_join (p : String) {q : String} (hq : isAbsolute q = false) :
    stack (join p q) = (steps q).foldl normalizeStep (stack p) := by
  rw [join, if_neg (by rw [hq]; exact Bool.false_ne_true)]
  by_cases hempty : p = ""
  · subst hempty
    have hnone : stack "" = [] := by decide
    rw [hnone, if_pos (by simp), String.empty_append, stack, bottom, if_neg (by rw [hq]; exact Bool.false_ne_true)]
  by_cases hslash : Text.endsWith p "/" = true
  · -- the separator is there already: cut it off, and put it back
    have hsuffix := hslash
    rw [Text.endsWith, List.isSuffixOf_iff_suffix] at hsuffix
    obtain ⟨front, hfront⟩ := hsuffix
    have hp : p = String.ofList front ++ "/" := by
      apply String.toList_inj.1
      rw [String.toList_append, String.toList_ofList, hfront]
    have hnothing : steps "" = [] := by decide
    have hsteps : steps p = steps (String.ofList front) := by
      have hcut := steps_append (String.ofList front) ""
      rwa [String.append_empty, ← hp, hnothing, List.append_nil] at hcut
    rw [if_pos (by simp [hslash]), stack, stack, hsteps, bottom, bottom, isAbsolute_append hempty, hp, steps_append,
      List.foldl_append]
  · rw [if_neg (by simp [hempty, hslash]), stack, stack, steps_append, List.foldl_append, bottom, bottom,
      String.append_assoc, isAbsolute_append hempty]

theorem normalize_join (p q : String) : normalize (join p q) = normalize (join (normalize p) q) := by
  by_cases hq : isAbsolute q = true
  · rw [join, join, if_pos hq, if_pos hq]
  · rw [Bool.not_eq_true] at hq
    rw [normalize_eq_render, normalize_eq_render, stack_join p hq, stack_join (normalize p) hq, stack_normalize]

/-! ## Where paths lead -/

/-- where a path leads from a location, told by its text alone -/
def reached (here : Location) (p : String) : Location :=
  Disk.lexical (if isAbsolute p then [] else here) (Text.splitAt '/' p)

/-- one component further -/
def advance (here : Location) : Component → Location
  | .root => []
  | .current => here
  | .parent => here.dropLast
  | .normal name => here ++ [name]

theorem lexical_eq_foldl (here : Location) (pieces : List String) :
    Disk.lexical here pieces = (pieces.filterMap piece?).foldl advance here := by
  induction pieces generalizing here with
  | nil => rfl
  | cons piece rest ih =>
    rw [Disk.lexical]
    by_cases hskip : piece = "" ∨ piece = "."
    · have hnone : piece? piece = none := by simp [piece?, hskip]
      rw [if_pos (by simpa using hskip), List.filterMap_cons_none hnone, ih]
    · by_cases hup : piece = ".."
      · have hsome : piece? piece = some .parent := by simp [hup, piece?]
        rw [if_neg (by simpa using hskip), if_pos hup, List.filterMap_cons_some hsome, ih]
        rfl
      · have hsome : piece? piece = some (.normal piece) := by simp [piece?, hskip, hup]
        rw [if_neg (by simpa using hskip), if_neg hup, List.filterMap_cons_some hsome, ih]
        rfl

/-- where a stack leads, component by component from the bottom -/
def leads (s : List Component) (here : Location) : Location := s.reverse.foldl advance here

/-- one step on a stack is one step from where the stack leads -/
theorem Stacked.leads_step (h : Stacked absolute s) (hc : IsStep c) (here : Location) :
    leads (normalizeStep s c) here = advance (leads s here) c := by
  have hpush : ∀ top : Component, leads (top :: s) here = advance (leads s here) top := by
    intro top
    rw [leads, List.reverse_cons, List.foldl_append]
    rfl
  rcases hc with rfl | ⟨name, rfl, -⟩
  · obtain ⟨names, ups, -, rfl⟩ := h
    cases names with
    | cons last rest =>
      simp [normalizeStep, leads, List.foldl_append, advance]
    | nil =>
      cases absolute with
      | true => rfl
      | false =>
        have hup : normalizeStep (List.replicate ups Component.parent) .parent =
            .parent :: List.replicate ups .parent := by
          cases ups <;> simp [normalizeStep, List.replicate_succ]
        rw [List.map_nil, List.nil_append, if_neg Bool.false_ne_true] at hpush ⊢
        rw [hup, hpush]
  · exact hpush (.normal name)

theorem Stacked.leads_run (h : Stacked absolute s) (hcs : ∀ c ∈ cs, IsStep c) (here : Location) :
    leads (cs.foldl normalizeStep s) here = cs.foldl advance (leads s here) := by
  induction cs generalizing s with
  | nil => rfl
  | cons c cs ih =>
    obtain ⟨hc, hrest⟩ := List.forall_mem_cons.1 hcs
    rw [List.foldl_cons, List.foldl_cons, ih (h.step hc) hrest, h.leads_step hc]

theorem reached_eq_leads (here : Location) (p : String) : reached here p = leads (stack p) here := by
  have hstart : leads (bottom p) here = if isAbsolute p then [] else here := by
    cases h : isAbsolute p <;> simp [bottom, leads, h, advance]
  rw [reached, lexical_eq_foldl, stack, (stacked_bottom p).leads_run fun _ => isStep_of_mem_steps, hstart, steps]

/-- a path and its normal form lead to the same place -/
theorem reached_normalize (here : Location) (p : String) : reached here (normalize p) = reached here p := by
  rw [reached_eq_leads, reached_eq_leads, stack_normalize]

/-- Normal forms that lead to the same place from everywhere are the same. Told by a location of one name over and over that
neither of them holds: how often it is left says how far they go up, and the rest are their names. -/
theorem Stacked.eq_of_leads (h : Stacked absolute s) (h' : Stacked absolute' s')
    (hleads : ∀ here, leads s here = leads s' here) : s = s' := by
  obtain ⟨names, ups, -, rfl⟩ := h
  obtain ⟨names', ups', -, rfl⟩ := h'
  have : Infinite String := Infinite.of_injective String.ofList fun _ _ => String.ofList_inj.1
  obtain ⟨z, hz⟩ := Infinite.exists_notMem_finset (names ++ names').toFinset
  simp only [List.mem_toFinset, List.mem_append, not_or] at hz
  have hdown : ∀ (l here : Location), (l.map Component.normal).foldl advance here = here ++ l := by
    intro l
    induction l with
    | nil => simp
    | cons name rest ih => intro here; rw [List.map_cons, List.foldl_cons, ih]; simp [advance]
  have hup : ∀ n m, (List.replicate m Component.parent).foldl advance (List.replicate n z) = List.replicate (n - m) z := by
    intro n m
    induction m generalizing n with
    | zero => rfl
    | succ m ih =>
      rw [List.replicate_succ, List.foldl_cons, advance, List.dropLast_replicate, ih, Nat.sub_sub, Nat.add_comm]
  have hvalue : ∀ (a : Bool) (l : Location) (m n : Nat),
      leads (l.map .normal ++ if a then [.root] else List.replicate m .parent) (List.replicate n z) =
        List.replicate (if a then 0 else n - m) z ++ l.reverse := by
    intro a l m n
    rw [leads, List.reverse_append, List.foldl_append, ← List.map_reverse, hdown]
    cases a with
    | true => rfl
    | false => simp only [Bool.false_eq_true, if_false, List.reverse_replicate, hup]
  have hsame := hleads (List.replicate (ups + ups' + 1) z)
  rw [hvalue, hvalue] at hsame
  have hcount := congrArg (List.count z) hsame
  simp only [List.count_append, List.count_replicate_self, List.count_reverse, List.count_eq_zero.2 hz.1,
    List.count_eq_zero.2 hz.2, Nat.add_zero] at hcount
  rw [hcount] at hsame
  obtain rfl := List.reverse_injective (List.append_cancel_left hsame)
  cases absolute <;> cases absolute' <;> simp only [Bool.false_eq_true, if_true, if_false] at hcount ⊢
  · rw [show ups = ups' by omega]
  · omega
  · omega

/-! ## Normal forms of texts -/

/-- **The normal form of a path.** It is the root and names, or a row of `..` and names, written without anything else
between separators; it is absolute if the path is; normalizing it again changes nothing; it can stand for the path in front
of whatever is joined to the path. Two paths have the same normal form exactly if they lead to the same place, wherever they
start. -/
theorem normalize_normal_form :
    (∀ p, ∃ ups names, PlainLocation names ∧
      components (normalize p) = (if isAbsolute p then [.root] else List.replicate ups .parent) ++ names.map .normal ∧
      normalize p = render (components (normalize p))) ∧
    (∀ p, isAbsolute (normalize p) = isAbsolute p) ∧
    (∀ p, normalize (normalize p) = normalize p) ∧
    (∀ p q, normalize (join p q) = normalize (join (normalize p) q)) ∧
    ∀ p q, same (normalize p) (normalize q) = true ↔ ∀ here, reached here p = reached here q := by
  refine ⟨fun p => ?_, isAbsolute_normalize, fun p => ?_, normalize_join, fun p q => ?_⟩
  · obtain ⟨names, ups, hnames, hstack⟩ := stacked_stack p
    refine ⟨ups, names.reverse, fun n hn => hnames n (List.mem_reverse.1 hn), ?_, ?_⟩
    · rw [components_normalize, hstack, List.reverse_append, ← List.map_reverse]
      cases isAbsolute p <;> simp
    · rw [components_normalize, normalize_eq_render]
  · rw [normalize_eq_render, stack_normalize, ← normalize_eq_render]
  · rw [same, beq_iff_eq, components_normalize, components_normalize, List.reverse_inj]
    constructor
    · intro h here
      rw [reached_eq_leads, reached_eq_leads, h]
    · intro h
      apply (stacked_stack p).eq_of_leads (stacked_stack q)
      intro here
      rw [← reached_eq_leads, ← reached_eq_leads, h here]

example : normalize "vendor/./composer/../../../x//y/.." = "../x" := by decide +kernel

end Isolation.Path
