/-
The keys of the generated tables that are replaced, and the file that comes out of it.

- `selected`, `tables_eq_selected`: the arrays that hold a table, told by the order in which nodes are met from the outside in.
- `unmarkedKeys`, `edits_eq`: the keys directly in these arrays that read as quoted texts without the marker; there is one
  edit for each of them.
- `inRow_unmarkedKeys`: if the nodes of the tree are spaced, they stand one behind the other, wherever the arrays are.
- `applyFrom_keys`: so their edits can be made, and change nothing else.
- `unmarkedKey?_newText`: no key that was put there is replaced again.
- `rekeySource_marks_keys`: all of it for a whole file, with any parser.
-/
import Isolation.Proofs.AutoloadCache.Keys
import Isolation.Proofs.Source.ParserSpans
import Isolation.Proofs.Source.QuotedValue
import Isolation.Proofs.Source.Reversal

namespace Isolation

theorem Text.occursIn_iff {needle hay : List Char} : occursIn needle hay = true ↔ needle <:+: hay := by
  induction hay with
  | nil => simp [occursIn]
  | cons h hs ih => rw [occursIn, Bool.or_eq_true, ih, List.isPrefixOf_iff_prefix, List.infix_cons_iff]

namespace AutoloadCache

variable {vendorDir : String} {source : List UInt8} {lo hi : Nat}

/-! ## Which arrays hold a table -/

mutual

/-- a node and the named nodes inside it, from the outside in and from left to right; nothing if it is not named -/
def preorderOf : Node → List Node
  | .mk kind named field span children => if named then .mk kind named field span children :: preorder children else []

def preorder : List Node → List Node
  | [] => []
  | n :: rest => preorderOf n ++ preorder rest

end

mutual

/-- the properties in a node that are not inside another property -/
def propertiesOf : Node → List Node
  | .mk kind named field span children =>
    if kind = .propertyElement then [.mk kind named field span children] else properties children

def properties : List Node → List Node
  | [] => []
  | n :: rest => (if n.named then propertiesOf n else []) ++ properties rest

end

/-- the first array inside a node, if there is one -/
def firstArray (n : Node) : List Node := ((preorder n.children).find? (·.kind == .arrayCreation)).toList

/-- the arrays whose keys are replaced: the first one of the first returned value, or of every property `$files` -/
def selected (artifact : CacheArtifact) (source : List UInt8) (root : Node) : List Node :=
  match artifact with
  | .files => ((preorder root.children).find? (·.kind == .returnStatement)).toList.flatMap firstArray
  | .static_ => ((propertiesOf root).filter (isFilesProperty source)).flatMap firstArray

mutual

theorem find?_eq (p : Node → Bool) : (n : Node) → n.find? p = (preorderOf n).find? p
  | .mk kind named field span children => by
    rw [Node.find?, preorderOf]
    split
    · rw [List.find?_cons, findIn?_eq p children]
      cases p (.mk kind named field span children) <;> rfl
    · rfl

theorem findIn?_eq (p : Node → Bool) : (nodes : List Node) → Node.findIn? p nodes = (preorder nodes).find? p
  | [] => rfl
  | n :: rest => by
    rw [Node.findIn?, preorder, List.find?_append, ← find?_eq p n, ← findIn?_eq p rest]
    cases n.find? p <;> rfl

end

mutual

theorem filesArraysOf_eq (source : List UInt8) : (n : Node) →
    filesArraysOf source n = ((propertiesOf n).filter (isFilesProperty source)).flatMap firstArray
  | .mk kind named field span children => by
    rw [filesArraysOf, propertiesOf]
    split
    · rw [List.filter_cons, findIn?_eq]
      cases isFilesProperty source (.mk kind named field span children) with
      | true => simp [firstArray, Node.children]
      | false => rfl
    · exact filesArrays_eq source children

theorem filesArrays_eq (source : List UInt8) : (nodes : List Node) →
    filesArrays source nodes = ((properties nodes).filter (isFilesProperty source)).flatMap firstArray
  | [] => rfl
  | n :: rest => by
    rw [filesArrays, properties, List.filter_append, List.flatMap_append, filesArrays_eq source rest,
      filesArraysOf_eq source n]
    cases n.named <;> rfl

end

theorem tables_eq_selected (artifact : CacheArtifact) (source : List UInt8) (root : Node) :
    tables artifact source root = selected artifact source root := by
  cases artifact with
  | files =>
    rw [tables, selected, returnedArray, findIn?_eq]
    cases (preorder root.children).find? (·.kind == .returnStatement) with
    | none => rfl
    | some r => simp [firstArray, findIn?_eq]
  | static_ => exact filesArraysOf_eq source root

/-! ## Which keys are replaced -/

/-- a key without the marker, as it stands in a table -/
structure UnmarkedKey where
  span : Span
  /-- how the key is written -/
  text : String
  /-- the text that it stands for -/
  value : String
  /-- how the value of the entry is written -/
  file : String
deriving DecidableEq, Repr

/-- the key of an element, if it has one that reads as a quoted text without the marker -/
def unmarkedKey? (source : List UInt8) (element : Node) : Option UnmarkedKey :=
  (entryOf? element).bind fun (key, value) =>
    (Php.textAt? source key.span).bind fun text =>
      (Literal.ofSource? text key.span.start).bind fun l =>
        if marker.toList <:+: l.value.toList then none
        else some ⟨key.span, text, l.value, (Php.textAt? source value.span).getD ""⟩

/-- the unmarked keys of the elements directly in an array -/
def arrayKeys (source : List UInt8) (array : Node) : List UnmarkedKey :=
  (array.children.filter (·.isNamed .arrayElement)).filterMap (unmarkedKey? source)

/-- the unmarked keys of a file -/
def unmarkedKeys (artifact : CacheArtifact) (source : List UInt8) (root : Node) : List UnmarkedKey :=
  (selected artifact source root).flatMap (arrayKeys source)

/-- how the new key is written -/
def UnmarkedKey.newText (vendorDir : String) (k : UnmarkedKey) : String :=
  "'" ++ cacheKey vendorDir k.file k.value ++ "'"

def UnmarkedKey.edit (vendorDir : String) (k : UnmarkedKey) : Edit := ⟨k.span, k.text, k.newText vendorDir⟩

theorem mem_children_of_entryOf? {element key value : Node} (h : entryOf? element = some (key, value)) :
    key ∈ element.children := by
  rw [entryOf?, Option.ite_none_right_eq_some] at h
  obtain ⟨-, h⟩ := h
  split at h
  · rename_i first rest hnamed
    obtain ⟨last, -, hpair⟩ := Option.map_eq_some_iff.1 h
    cases hpair
    have hkey : key ∈ element.namedChildren := hnamed ▸ List.mem_cons_self
    exact List.mem_of_mem_filter hkey
  · cases h

theorem unmarkedKey?_eq_some {element : Node} {k : UnmarkedKey} (h : unmarkedKey? source element = some k) :
    (∃ key ∈ element.children, k.span = key.span) ∧ Php.textAt? source k.span = some k.text ∧
      (∃ l, Literal.ofSource? k.text k.span.start = some l ∧ l.value = k.value) ∧
      ¬ marker.toList <:+: k.value.toList := by
  obtain ⟨⟨key, value⟩, hentry, h⟩ := Option.bind_eq_some_iff.1 h
  obtain ⟨text, htext, h⟩ := Option.bind_eq_some_iff.1 h
  obtain ⟨l, hl, h⟩ := Option.bind_eq_some_iff.1 h
  split at h
  · cases h
  · rename_i hmarker
    cases h
    exact ⟨⟨key, mem_children_of_entryOf? hentry, rfl⟩, htext, ⟨l, hl, rfl⟩, hmarker⟩

theorem mem_unmarkedKeys {artifact : CacheArtifact} {root : Node} {k : UnmarkedKey}
    (h : k ∈ unmarkedKeys artifact source root) : ∃ element, unmarkedKey? source element = some k := by
  obtain ⟨array, -, hk⟩ := List.mem_flatMap.1 h
  obtain ⟨element, -, hk⟩ := List.mem_filterMap.1 hk
  exact ⟨element, hk⟩

/-- an entry is edited exactly if its key is unmarked -/
theorem entryEdit_eq (vendorDir : String) (source : List UInt8) (element : Node) :
    entryEdit vendorDir source element = ((unmarkedKey? source element).map (·.edit vendorDir)).toList := by
  unfold entryEdit unmarkedKey?
  cases entryOf? element with
  | none => rfl
  | some entry =>
    obtain ⟨key, value⟩ := entry
    rw [Option.bind_some]
    dsimp only
    cases Php.textAt? source key.span with
    | none => rfl
    | some text =>
      rw [Option.getD_some, Option.bind_some]
      cases Literal.ofSource? text key.span.start with
      | none => rfl
      | some l =>
        rw [Option.bind_some]
        by_cases hmarker : marker.toList <:+: l.value.toList
        · have hmarked : Text.containsText l.value marker = true := Text.occursIn_iff.2 hmarker
          simp only [hmarker, hmarked, if_true]
          rfl
        · have hunmarked : Text.containsText l.value marker = false := by
            rw [← Bool.not_eq_true]
            exact fun h => hmarker (Text.occursIn_iff.1 h)
          simp only [hmarker, hunmarked, if_false, Bool.false_eq_true]
          rfl

theorem edits_eq (vendorDir : String) (artifact : CacheArtifact) (source : List UInt8) (root : Node) :
    (tables artifact source root).flatMap (tableEdits vendorDir source) =
      (unmarkedKeys artifact source root).map (·.edit vendorDir) := by
  rw [tables_eq_selected, unmarkedKeys, List.map_flatMap]
  apply List.flatMap_congr
  intro array _
  rw [tableEdits, arrayKeys, List.map_filterMap, List.filterMap_eq_flatMap_toList]
  apply List.flatMap_congr
  intro element _
  exact entryEdit_eq vendorDir source element

/-! ## Keys one behind the other -/

/-- the keys of elements one behind the other -/
theorem inRow_elements (source : List UInt8) {nodes : List Node} (h : SpacedIn lo hi nodes) :
    InRow lo hi (((nodes.filter (·.isNamed .arrayElement)).filterMap (unmarkedKey? source)).map (·.span)) := by
  induction nodes generalizing lo with
  | nil => exact h
  | cons n rest ih =>
    obtain ⟨hlo, hn, hrest⟩ := h
    have hskip := (ih hrest).lower (hlo.trans hn.le)
    rw [List.filter_cons]
    split
    · rw [List.filterMap_cons]
      cases hkey : unmarkedKey? source n with
      | none => exact hskip
      | some k =>
        -- the key is one of the children, and the next element starts behind them all
        obtain ⟨⟨key, hmem, hk⟩, -⟩ := unmarkedKey?_eq_some hkey
        have hwithin := hn.children.within hmem
        rw [List.map_cons, hk]
        exact ⟨hlo.trans hwithin.start, hwithin.spaced.le, (ih hrest).lower hwithin.stop⟩
    · exact hskip

theorem inRow_firstArray (source : List UInt8) {n : Node} (h : n.Spaced) :
    InRow n.span.start n.span.stop (((firstArray n).flatMap (arrayKeys source)).map (·.span)) := by
  rw [firstArray, ← findIn?_eq]
  cases hfound : Node.findIn? (·.kind == .arrayCreation) n.children with
  | none => exact h.le
  | some array =>
    have hwithin := h.children.find? hfound
    have hkeys := inRow_elements source hwithin.spaced.children
    simpa [arrayKeys] using (hkeys.lower hwithin.start).raise hwithin.stop

mutual

theorem inRow_propertiesOf {f : Node → List Span}
    (hf : ∀ {n : Node}, n.Spaced → InRow n.span.start n.span.stop (f n)) :
    ∀ {n : Node}, n.Spaced → InRow n.span.start n.span.stop ((propertiesOf n).flatMap f)
  | .mk kind named field span children, h => by
    rw [propertiesOf]
    split
    · rw [List.flatMap_singleton]
      exact hf h
    · exact inRow_properties hf h

/-- what is gathered from the properties of nodes one behind the other is in a row -/
theorem inRow_properties {f : Node → List Span}
    (hf : ∀ {n : Node}, n.Spaced → InRow n.span.start n.span.stop (f n)) :
    ∀ {lo hi : Nat} {nodes : List Node}, SpacedIn lo hi nodes → InRow lo hi ((properties nodes).flatMap f)
  | _, _, [], h => h
  | _, _, n :: rest, ⟨hlo, hn, hrest⟩ => by
    rw [properties, List.flatMap_append]
    refine InRow.append ?_ (inRow_properties hf hrest)
    split
    · exact (inRow_propertiesOf hf hn).lower hlo
    · exact hlo.trans hn.le

end

/-- **Keys do not overlap**, whichever arrays they are in. -/
theorem inRow_unmarkedKeys (artifact : CacheArtifact) (source : List UInt8) {root : Node} (h : root.Spaced) :
    InRow root.span.start root.span.stop ((unmarkedKeys artifact source root).map (·.span)) := by
  cases artifact with
  | files =>
    rw [unmarkedKeys, selected, ← findIn?_eq]
    cases hfound : Node.findIn? (·.kind == .returnStatement) root.children with
    | none => exact h.le
    | some r =>
      have hwithin := h.children.find? hfound
      simpa using ((inRow_firstArray source hwithin.spaced).lower hwithin.start).raise hwithin.stop
  | static_ =>
    have hall := inRow_propertiesOf (inRow_firstArray source) h
    refine hall.sublist ?_
    rw [unmarkedKeys, selected, List.flatMap_assoc, List.map_flatMap]
    exact List.filter_sublist.flatMap _

/-! ## The edited file -/

/-- The bytes are those of the source from `cursor` on, with the texts at some spans replaced, in their order, and all else
kept. -/
inductive ReplacedAt (source : List UInt8) : Nat → List (Span × String) → List UInt8 → Prop where
  | kept (cursor : Nat) : ReplacedAt source cursor [] (source.drop cursor)
  | replaced {cursor : Nat} {span : Span} {text : String} {more : List (Span × String)} {tail : List UInt8}
      (hstart : cursor ≤ span.start) (hspan : span.Inside source) (hmore : ReplacedAt source span.stop more tail) :
      ReplacedAt source cursor ((span, text) :: more)
        ((source.drop cursor).take (span.start - cursor) ++ Utf8.encode text ++ tail)

/-- keys in a row can be replaced -/
theorem applyFrom_keys (vendorDir : String) {cursor : Nat} {ks : List UnmarkedKey} (hrow : InRow cursor hi (ks.map (·.span)))
    (hread : ∀ k ∈ ks, Php.textAt? source k.span = some k.text) :
    ∃ out, Edit.applyFrom source cursor (ks.map (·.edit vendorDir)) = .ok out ∧
      ReplacedAt source cursor (ks.map fun k => (k.span, k.newText vendorDir)) out := by
  induction ks generalizing cursor with
  | nil => exact ⟨_, rfl, .kept cursor⟩
  | cons k ks ih =>
    obtain ⟨hstart, -, hrest⟩ := hrow
    obtain ⟨hk, hks⟩ := List.forall_mem_cons.1 hread
    obtain ⟨tail, htail, hreplaced⟩ := ih hrest hks
    have hslice := (textAt?_eq_some hk).1
    have hmatch : Edit.Matches source (k.edit vendorDir) := Edit.slice?_eq_some_iff.1 hslice
    exact ⟨_, Edit.applyFrom_cons_eq_ok_iff.2 ⟨hstart, hmatch, tail, htail, rfl⟩,
      .replaced hstart (slice?_eq_some hslice).1 hreplaced⟩

/-! ## Keys that are not replaced again -/

/-- a new key stands for itself between its quotes -/
theorem ofSource?_newText (vendorDir : String) (k : UnmarkedKey) (start : Nat) :
    ∃ l, Literal.ofSource? (k.newText vendorDir) start = some l ∧ l.value = cacheKey vendorDir k.file k.value := by
  obtain ⟨key, hkey⟩ : ∃ key, key = cacheKey vendorDir k.file k.value := ⟨_, rfl⟩
  have hshaped := keyShaped_cacheKey vendorDir k.file k.value
  rw [← hkey] at hshaped ⊢
  have hplain : separator ∉ key.toList := by
    intro hmem
    rcases hshaped.chars _ hmem with h | h
    · exact absurd h (by decide)
    · exact absurd h (by decide)
  have hraw : (k.newText vendorDir).toList =
      [] ++ QuoteStyle.single.quote :: (key.toList ++ [QuoteStyle.single.quote]) := by
    simp [UnmarkedKey.newText, ← hkey, QuoteStyle.quote]
  refine ⟨_, Literal.ofSource?_ofContent _ (.inl rfl) hraw, ?_⟩
  have hvalues : Literal.values .single (key.toList ++ []) = key.toList ++ Literal.values .single [] :=
    Literal.values_append_label hplain []
  have hnothing : Literal.values .single [] = [] := by simp [Literal.values, Literal.pieces]
  rw [List.append_nil, hnothing, List.append_nil] at hvalues
  rw [Literal.value_ofContent, hvalues, String.ofList_toList]

/-- no key that carries the marker is replaced, wherever it stands -/
theorem unmarkedKey?_newText {k : UnmarkedKey}
    (hmarker : marker.toList <:+: (cacheKey vendorDir k.file k.value).toList) {element key value : Node}
    (hentry : entryOf? element = some (key, value))
    (htext : Php.textAt? source key.span = some (k.newText vendorDir)) : unmarkedKey? source element = none := by
  obtain ⟨l, hl, hvalue⟩ := ofSource?_newText vendorDir k key.span.start
  rw [unmarkedKey?, hentry, Option.bind_some]
  dsimp only
  rw [htext, Option.bind_some, hl, Option.bind_some, hvalue, if_pos hmarker]

/-- **Rekeying marks the unmarked keys, and touches nothing else.** In a file that the parser reads into spaced nodes, every
key directly in a selected array that reads as a quoted text without the marker is replaced by the new key in single quotes,
and only these are; they are counted. If the last three names of the vendor directory have a letter or a digit in lower case,
every new key holds the marker, and an element with such a key has no unmarked key any more. -/
theorem rekeySource_marks_keys (vendorDir : String) (artifact : CacheArtifact) (source : List UInt8) (path : String)
    (parser : Parser) {root : Node} (hroot : parser source = some root) (hspaced : root.Spaced)
    (hscope : ∃ name ∈ scopeNames vendorDir,
      ∃ c ∈ (Text.lowerToAscii name).toList, (Ascii.isLetter c || Ascii.isDigit c) = true) :
    ∃ out, rekeySource vendorDir artifact source path parser = .ok (out, (unmarkedKeys artifact source root).length) ∧
      ReplacedAt source 0 ((unmarkedKeys artifact source root).map fun k => (k.span, k.newText vendorDir)) out ∧
      ∀ k ∈ unmarkedKeys artifact source root,
        marker.toList <:+: (cacheKey vendorDir k.file k.value).toList ∧
        ∀ (again : List UInt8) (element key value : Node), entryOf? element = some (key, value) →
          Php.textAt? again key.span = some (k.newText vendorDir) → unmarkedKey? again element = none := by
  have hrow := (inRow_unmarkedKeys artifact source hspaced).lower (Nat.zero_le _)
  have hmarker : ∀ k : UnmarkedKey, marker.toList <:+: (cacheKey vendorDir k.file k.value).toList := fun k =>
    (marker_prefix_cacheKey (exists_letter_keyScope hscope) k.file k.value).isInfix
  have hread : ∀ k ∈ unmarkedKeys artifact source root, Php.textAt? source k.span = some k.text := by
    intro k hk
    obtain ⟨element, helement⟩ := mem_unmarkedKeys hk
    exact (unmarkedKey?_eq_some helement).2.1
  obtain ⟨out, hout, hreplaced⟩ := applyFrom_keys vendorDir hrow hread
  -- an edit that changes nothing would put a marked key in the place of itself
  have heffective : ∀ e ∈ (unmarkedKeys artifact source root).map (·.edit vendorDir), e.isNoop = false := by
    intro e he
    obtain ⟨k, hk, rfl⟩ := List.mem_map.1 he
    obtain ⟨element, helement⟩ := mem_unmarkedKeys hk
    obtain ⟨-, -, ⟨l, hl, hvalue⟩, hunmarked⟩ := unmarkedKey?_eq_some helement
    obtain ⟨l', hl', hvalue'⟩ := ofSource?_newText vendorDir k k.span.start
    rw [Edit.isNoop, beq_eq_false_iff_ne]
    intro hsame
    have htext : k.text = k.newText vendorDir := hsame
    rw [htext, hl', Option.some.injEq] at hl
    rw [← hvalue, ← hl, hvalue'] at hunmarked
    exact hunmarked (hmarker k)
  have hall : Edit.applyAll source ((unmarkedKeys artifact source root).map (·.edit vendorDir)) = .ok out := by
    rw [Edit.applyAll, Edit.ordered_of_applyFrom hout heffective, hout]
  refine ⟨out, ?_, hreplaced, fun k _ => ⟨hmarker k, fun again element key value => unmarkedKey?_newText (hmarker k)⟩⟩
  rw [rekeySource, hroot]
  dsimp only
  rw [edits_eq]
  split
  · rename_i hempty
    rw [List.isEmpty_iff, List.map_eq_nil_iff] at hempty
    rw [hempty] at hout ⊢
    cases hout
    rfl
  · rw [hall, List.length_map]

/-- Two properties `$files`. The first table holds a nested table, a key that is no text and a key with the marker besides two
unmarked keys; in the second one a property stands inside a value. -/
def staticSource : List UInt8 :=
  Utf8.encode ("<?php\nclass A \x7b\n  public static $files = array('k1' => array('n' => 1), $x => 'a.php', 'isolated-z' => 2," ++
    " b\"k\\x41\" => __DIR__ . '/b.php');\n  public $files = ['k3' => new class \x7b public $files = ['k4' => 5]; \x7d];\n\x7d\n")

theorem rekeySource_marks_keys_sample :
    ∃ root out, Php.parser staticSource = some root ∧ root.Spaced ∧
      (unmarkedKeys .static_ staticSource root).map (·.text) = ["'k1'", "b\"k\\x41\"", "'k3'"] ∧
      (∃ name ∈ scopeNames "/srv/App/vendor",
        ∃ c ∈ (Text.lowerToAscii name).toList, (Ascii.isLetter c || Ascii.isDigit c) = true) ∧
      rekeySource "/srv/App/vendor" .static_ staticSource "autoload_static.php" = .ok (out, 3) ∧
      ReplacedAt staticSource 0
        ((unmarkedKeys .static_ staticSource root).map fun k => (k.span, k.newText "/srv/App/vendor")) out := by
  have hkeys : (Php.parser staticSource).map (fun root => (unmarkedKeys .static_ staticSource root).map (·.text)) =
      some ["'k1'", "b\"k\\x41\"", "'k3'"] := by decide +kernel
  have hscope : ∃ name ∈ scopeNames "/srv/App/vendor",
      ∃ c ∈ (Text.lowerToAscii name).toList, (Ascii.isLetter c || Ascii.isDigit c) = true :=
    ⟨"App", by decide +kernel, 'a', by decide +kernel, by decide⟩
  obtain ⟨root, hroot, hthree⟩ := Option.map_eq_some_iff.1 hkeys
  have hspaced := Php.parser_spaced hroot
  obtain ⟨out, hout, hreplaced, -⟩ :=
    rekeySource_marks_keys _ .static_ _ "autoload_static.php" Php.parser hroot hspaced hscope
  have hcount : (unmarkedKeys .static_ staticSource root).length = 3 := by
    have hlength := congrArg List.length hthree
    rwa [List.length_map] at hlength
  rw [hcount] at hout
  exact ⟨root, out, hroot, hspaced, hthree, hscope, hout, hreplaced⟩

end AutoloadCache

end Isolation
