/-
Disks that are trees: without links, and with a directory around everything that is there.

On a tree a path leads where its names say, and a renaming is told by what is at each location afterwards.

- `locate_tree`: what a path leads to is at the location that its text names.
- `entryAt?_pathOf`: the path of a location leads to what is there.
- `get?_move`: the view on a disk after a move.
- `renamed_of_rename`: what a renaming that was not refused does.
- `makeDirectories_grown`: making directories adds directories on the way to a location and nothing else.
-/
import Isolation.Proofs.Disk.Location
import Isolation.Proofs.Disk.Writing

namespace Isolation.Disk

variable {d d' : Disk} {l m : Location}

/-- a disk without links in which everything stands in a directory -/
structure Tree (d : Disk) : Prop where
  no_link : ∀ l target, d.get? l ≠ some (.link target)
  closed : ∀ l name e, d.get? (l ++ [name]) = some e → d.get? l = some .directory

namespace Tree

theorem directory_of_append (ht : d.Tree) {e : Entry} (hm : m ≠ []) (h : d.get? (l ++ m) = some e) :
    d.get? l = some .directory := by
  induction m using List.reverseRecOn generalizing e with
  | nil => exact absurd rfl hm
  | append_singleton m name ih =>
    rw [← List.append_assoc] at h
    have hparent := ht.closed _ _ _ h
    by_cases hempty : m = []
    · rwa [hempty, List.append_nil] at hparent
    · exact ih hempty hparent

theorem directory_above (ht : d.Tree) {e : Entry} (hlm : l <+: m) (hne : l ≠ m) (h : d.get? m = some e) :
    d.get? l = some .directory := by
  obtain ⟨rest, rfl⟩ := hlm
  exact ht.directory_of_append (fun hrest => hne (by rw [hrest, List.append_nil])) h

theorem none_below (ht : d.Tree) (hlm : l <+: m) (h : d.get? l = none) : d.get? m = none := by
  cases hm : d.get? m with
  | none => rfl
  | some e =>
    by_cases hne : l = m
    · rw [hne, hm] at h
      cases h
    · rw [ht.directory_above hlm hne hm] at h
      cases h

theorem exists_parent (ht : d.Tree) (hl : l ≠ []) {e : Entry} (h : d.get? l = some e) :
    ∃ parent name, l = parent ++ [name] ∧ d.get? parent = some .directory := by
  obtain rfl | ⟨parent, name, rfl⟩ := List.eq_nil_or_concat l
  · exact absurd rfl hl
  · rw [List.concat_eq_append] at h ⊢
    exact ⟨parent, name, rfl, ht.closed _ _ _ h⟩

end Tree

/-! ## Where paths lead -/

/-- the location that names say, without a look at the disk -/
def lexical (here : Location) : List String → Location
  | [] => here
  | name :: rest =>
    if name = "" || name = "." then lexical here rest
    else if name = ".." then lexical here.dropLast rest
    else lexical (here ++ [name]) rest

/-- what a place says is what is there; something missing has a directory around it -/
def Located (d : Disk) : Place → Prop
  | .found l entry => d.get? l = some entry
  | .missing l _ => d.get? l = none ∧ ∃ parent name, l = parent ++ [name] ∧ d.get? parent = some .directory

theorem lexical_of_blank {here : Location} {names : List String} (h : names.all (· = "") = true) :
    lexical here names = here := by
  induction names with
  | nil => rfl
  | cons name rest ih =>
    simp only [List.all_cons, Bool.and_eq_true, decide_eq_true_eq] at h
    rw [lexical, h.1, if_pos (by decide), ih h.2]

theorem lexical_of_plain {here : Location} (hl : PlainLocation l) : lexical here l = here ++ l := by
  induction l generalizing here with
  | nil => rw [lexical, List.append_nil]
  | cons name rest ih =>
    obtain ⟨hname, hrest⟩ := List.forall_mem_cons.1 hl
    rw [lexical, if_neg (by simp [hname.ne_empty, hname.ne_dot]), if_neg hname.ne_dots, ih hrest, List.append_assoc,
      List.singleton_append]

theorem lexical_append (here : Location) (names more : List String) :
    lexical here (names ++ more) = lexical (lexical here names) more := by
  induction names generalizing here with
  | nil => rfl
  | cons name rest ih =>
    rw [List.cons_append, lexical, lexical, ih, ih, ih]
    split
    · rfl
    · split <;> rfl

section Walks

variable {follow : Bool} {next : Location → List String → Except SystemError Place} {here : Location}
  {names : List String} {place : Place}

theorem walkNames_tree (ht : d.Tree) (hhere : d.get? here = some .directory)
    (h : d.walkNames follow next here names = .ok place) : place.location = lexical here names ∧ d.Located place := by
  induction names generalizing here with
  | nil =>
    cases h
    exact ⟨rfl, hhere⟩
  | cons name rest ih =>
    rw [walkNames] at h
    rw [lexical]
    split at h
    · rename_i hskip
      rw [if_pos hskip]
      exact ih hhere h
    rename_i hskip
    rw [if_neg hskip]
    split at h
    · rename_i hup
      rw [if_pos hup]
      refine ih ?_ h
      -- above a directory there is a directory
      by_cases htop : here = []
      · rw [htop]
        rfl
      · obtain ⟨parent, name, rfl, hparent⟩ := ht.exists_parent htop hhere
        rwa [List.dropLast_concat]
    rename_i hup
    rw [if_neg hup]
    split at h
    · rename_i hget
      split at h
      · rename_i hrest
        cases h
        exact ⟨(lexical_of_blank hrest).symm, hget, here, name, rfl, hhere⟩
      · cases h
    · rename_i hget
      exact ih hget h
    · rename_i bytes hget
      split at h
      · rename_i hrest
        cases h
        rw [List.isEmpty_iff.1 hrest]
        exact ⟨rfl, hget⟩
      · cases h
    · rename_i target hget
      exact absurd hget (ht.no_link _ _)

theorem walkNames_follow (ht : d.Tree) (next' : Location → List String → Except SystemError Place) (follow' : Bool) :
    d.walkNames follow next here names = d.walkNames follow' next' here names := by
  induction names generalizing here with
  | nil => rfl
  | cons name rest ih =>
    rw [walkNames, walkNames, ih, ih, ih]
    cases hget : d.get? (here ++ [name]) with
    | none => rfl
    | some e =>
      cases e with
      | link target => exact absurd hget (ht.no_link _ _)
      | _ => rfl

/-- names lead to what is there -/
theorem walkNames_found (ht : d.Tree) (hhere : d.get? here = some .directory) (hl : PlainLocation l) {e : Entry}
    (he : d.get? (here ++ l) = some e) : d.walkNames follow next here l = .ok (.found (here ++ l) e) := by
  induction l generalizing here with
  | nil =>
    rw [List.append_nil] at he ⊢
    rw [hhere] at he
    cases he
    rfl
  | cons name rest ih =>
    obtain ⟨hname, hrest⟩ := List.forall_mem_cons.1 hl
    rw [walkNames, if_neg (by simp [hname.ne_empty, hname.ne_dot]), if_neg hname.ne_dots]
    rw [List.append_cons here name rest] at he ⊢
    by_cases hlast : rest = []
    · subst hlast
      rw [List.append_nil] at he ⊢
      rw [he]
      cases e with
      | directory => rfl
      | file bytes => rfl
      | link target => exact absurd he (ht.no_link _ _)
    · have hdirectory := ht.directory_of_append hlast he
      rw [hdirectory]
      exact ih hdirectory hrest he

end Walks

theorem walk_eq (d : Disk) (follow : Bool) (links : Nat) :
    ∃ next, ∀ here names, d.walk follow links here names = d.walkNames follow next here names := by
  cases links with
  | zero => exact ⟨_, fun _ _ => rfl⟩
  | succ links => exact ⟨_, fun _ _ => rfl⟩

theorem locate_absolute (d : Disk) (follow : Bool) {path : String} (h : Path.isAbsolute path = true) :
    ∃ next, d.locate follow path = d.walkNames follow next [] (Text.splitAt '/' path) := by
  obtain ⟨next, hnext⟩ := walk_eq d follow linkLimit
  have hne : path ≠ "" := by
    rintro rfl
    cases h
  rw [Path.isAbsolute] at h
  exact ⟨next, by rw [locate, if_neg hne, if_pos h, hnext]⟩

/-- **What a path leads to is at the location that its text names.** -/
theorem locate_tree (ht : d.Tree) {path : String} (habsolute : Path.isAbsolute path = true) {follow : Bool}
    {place : Place} (h : d.locate follow path = .ok place) :
    place.location = lexical [] (Text.splitAt '/' path) ∧ d.Located place := by
  obtain ⟨next, hnext⟩ := locate_absolute d follow habsolute
  rw [hnext] at h
  exact walkNames_tree ht rfl h

theorem locate_follow (ht : d.Tree) {path : String} (habsolute : Path.isAbsolute path = true) :
    d.locate true path = d.locate false path := by
  obtain ⟨next, hnext⟩ := locate_absolute d true habsolute
  obtain ⟨next', hnext'⟩ := locate_absolute d false habsolute
  rw [hnext, hnext']
  exact walkNames_follow ht next' false

theorem lexical_pathOf (hl : PlainLocation l) : lexical [] (Text.splitAt '/' (pathOf l)) = l := by
  by_cases htop : l = []
  · subst htop
    rfl
  · rw [splitAt_pathOf hl htop, lexical, if_pos (by decide), lexical_of_plain hl, List.nil_append]

theorem locate_pathOf (ht : d.Tree) (hl : PlainLocation l) {follow : Bool} {place : Place}
    (h : d.locate follow (pathOf l) = .ok place) : place.location = l ∧ d.Located place := by
  have hplace := locate_tree ht (isAbsolute_pathOf l) h
  rwa [lexical_pathOf hl] at hplace

theorem locate_found (ht : d.Tree) (hl : PlainLocation l) (follow : Bool) {e : Entry} (he : d.get? l = some e) :
    d.locate follow (pathOf l) = .ok (.found l e) := by
  obtain ⟨next, hnext⟩ := locate_absolute d follow (isAbsolute_pathOf l)
  rw [hnext]
  by_cases htop : l = []
  · subst htop
    cases he
    rfl
  · rw [splitAt_pathOf hl htop, walkNames, if_pos (by decide)]
    exact walkNames_found ht rfl hl he

/-- **The path of a location leads to what is there.** -/
theorem entryAt?_pathOf (ht : d.Tree) (hl : PlainLocation l) : d.entryAt? (pathOf l) = d.get? l := by
  rw [entryAt?]
  cases he : d.get? l with
  | some e => rw [locate_found ht hl true he]
  | none =>
    split
    · rename_i m e hplace
      obtain ⟨rfl, hlocated⟩ := locate_pathOf ht hl hplace
      exact hlocated.symm.trans he
    · rfl

theorem exists?_pathOf (ht : d.Tree) (hl : PlainLocation l) : d.exists? (pathOf l) = (d.get? l).isSome := by
  rw [exists?, entryAt?_pathOf ht hl]

/-! ## Moves -/

theorem relocated_below {p q l : Location} (h : p <+: l) : relocated p q l = q ++ l.drop p.length :=
  if_pos (List.isPrefixOf_iff_prefix.2 h)

theorem relocated_elsewhere {p q l : Location} (h : ¬ p <+: l) : relocated p q l = l :=
  if_neg fun hfront => h (List.isPrefixOf_iff_prefix.1 hfront)

theorem find?_filter {keep : Location × Entry → Bool} (hkeep : ∀ e, keep (l, e) = true)
    (entries : List (Location × Entry)) : find? l (entries.filter keep) = find? l entries := by
  induction entries with
  | nil => rfl
  | cons f rest ih =>
    obtain ⟨k, e⟩ := f
    by_cases hk : k = l
    · rw [List.filter_cons_of_pos (hk ▸ hkeep e), find?, find?, if_pos hk, if_pos hk]
    · rw [find?, if_neg hk]
      by_cases hkept : keep (k, e) = true
      · rw [List.filter_cons_of_pos hkept, find?, if_neg hk, ih]
      · rw [List.filter_cons_of_neg hkept, ih]

/-- Of entries that are not at or below `q`, one is found at `l` after the move where it was found before. -/
theorem find?_map_relocated {p q : Location} {entries : List (Location × Entry)}
    (hentries : ∀ e ∈ entries, ¬ q <+: e.1) (l : Location) :
    find? l (entries.map fun e => (relocated p q e.1, e.2)) =
      if q <+: l then find? (p ++ l.drop q.length) entries else if p <+: l then none else find? l entries := by
  induction entries with
  | nil => simp [find?]
  | cons f rest ih =>
    obtain ⟨k, e⟩ := f
    obtain ⟨hk, hrest⟩ := List.forall_mem_cons.1 hentries
    rw [List.map_cons, find?, ih hrest]
    by_cases hpk : p <+: k
    · obtain ⟨x, rfl⟩ := hpk
      rw [relocated_below (List.prefix_append p x), List.drop_left]
      by_cases hql : q <+: l
      · obtain ⟨y, rfl⟩ := hql
        rw [if_pos (List.prefix_append q y), if_pos (List.prefix_append q y), List.drop_left, find?]
        simp only [List.append_cancel_left_eq]
      · have hne : q ++ x ≠ l := fun heq => hql (heq ▸ List.prefix_append q x)
        rw [if_neg hql, if_neg hql, if_neg hne]
        by_cases hpl : p <+: l
        · rw [if_pos hpl, if_pos hpl]
        · have hne' : p ++ x ≠ l := fun heq => hpl (heq ▸ List.prefix_append p x)
          rw [if_neg hpl, if_neg hpl, find?, if_neg hne']
    · rw [relocated_elsewhere hpk]
      by_cases hql : q <+: l
      · have hne : k ≠ l := fun heq => hk (heq ▸ hql)
        have hne' : k ≠ p ++ l.drop q.length := fun heq => hpk (heq ▸ List.prefix_append p _)
        rw [if_pos hql, if_pos hql, if_neg hne, find?, if_neg hne']
      · rw [if_neg hql, if_neg hql]
        by_cases hpl : p <+: l
        · have hne : k ≠ l := fun heq => hpk (heq ▸ hpl)
          rw [if_pos hpl, if_pos hpl, if_neg hne]
        · rw [if_neg hpl, if_neg hpl, find?]

/-- **The view on a disk after a move.** -/
theorem get?_move {p q : Location} (hpq : ¬ p <+: q) (hqp : ¬ q <+: p) (l : Location) :
    (d.move p q).get? l =
      if q <+: l then d.get? (p ++ l.drop q.length) else if p <+: l then none else d.get? l := by
  have hp : p ≠ [] := fun h => hpq (h ▸ List.nil_prefix)
  have hq : q ≠ [] := fun h => hqp (h ▸ List.nil_prefix)
  by_cases htop : l = []
  · subst htop
    rw [if_neg fun h => hq (List.prefix_nil.1 h), if_neg fun h => hp (List.prefix_nil.1 h)]
    rfl
  have herased : ∀ e ∈ (d.erase q).entries, ¬ q <+: e.1 := by
    intro e he hfront
    have hkept := (List.mem_filter.1 he).2
    rw [List.isPrefixOf_iff_prefix.2 hfront] at hkept
    cases hkept
  have hkept : ∀ {m : Location}, ¬ q <+: m → find? m (d.erase q).entries = find? m d.entries := by
    intro m hm
    refine find?_filter (fun e => ?_) d.entries
    have hnot : q.isPrefixOf m = false := by
      rw [← Bool.not_eq_true, List.isPrefixOf_iff_prefix]
      exact hm
    simp [hnot]
  rw [get?, if_neg htop, move, find?_map_relocated herased]
  by_cases hql : q <+: l
  · have hbelow : ¬ q <+: p ++ l.drop q.length := fun h =>
      (List.prefix_or_prefix_of_prefix h (List.prefix_append p _)).elim hqp hpq
    rw [if_pos hql, if_pos hql, hkept hbelow, get?, if_neg]
    simp [hp]
  · rw [if_neg hql, if_neg hql, hkept hql, get?, if_neg htop]

/-- a tree stays a tree when something goes into a directory that stays where it is -/
theorem Tree.move (ht : d.Tree) {p q parent : Location} {name : String} (hpq : ¬ p <+: q) (hqp : ¬ q <+: p)
    (hq : q = parent ++ [name]) (hparent : d.get? parent = some .directory) : (d.move p q).Tree := by
  refine ⟨fun l target h => ?_, fun l n e h => ?_⟩
  · rw [get?_move hpq hqp] at h
    split at h
    · exact ht.no_link _ _ h
    split at h
    · cases h
    · exact ht.no_link _ _ h
  · rw [get?_move hpq hqp] at h ⊢
    by_cases hql : q <+: l
    · obtain ⟨x, rfl⟩ := hql
      rw [if_pos (List.prefix_append q x), List.drop_left]
      rw [List.append_assoc, if_pos (List.prefix_append q _), List.drop_left, ← List.append_assoc] at h
      exact ht.closed _ _ _ h
    · rw [if_neg hql]
      by_cases hat : q <+: l ++ [n]
      · -- it is the thing moved itself, and `l` is the directory around it
        have hlq : q = l ++ [n] := (List.prefix_concat_iff.1 hat).resolve_right hql
        have hl : l = parent := (List.append_inj_left' (hq.symm.trans hlq) rfl).symm
        have hpl : ¬ p <+: l := fun h => hpq (h.trans (hlq ▸ List.prefix_append l [n]))
        rw [if_neg hpl, hl, hparent]
      · rw [if_neg hat] at h
        by_cases hpl : p <+: l ++ [n]
        · rw [if_pos hpl] at h
          cases h
        · rw [if_neg hpl] at h
          rw [if_neg fun h => hpl (h.trans (List.prefix_append l [n]))]
          exact ht.closed _ _ _ h

/-- What a renaming has found and done. Unless the two are the same place, neither is inside the other. -/
theorem rename_eq_ok {source target : String} (h : d.rename source target = .ok d') :
    ∃ p entry place, d.locate false source = .ok (.found p entry) ∧ d.locate false target = .ok place ∧
      (p = place.location ∨ ¬ p <+: place.location ∧ ¬ place.location <+: p ∧
        d.replaces entry place = .ok () ∧ d' = d.move p place.location) := by
  rw [rename] at h
  split at h
  · cases h
  · cases h
  · cases h
  · cases h
  · rename_i p entry place hsource htarget
    refine ⟨p, entry, place, hsource, htarget, ?_⟩
    dsimp only at h
    split at h
    · rename_i hsame
      exact .inl hsame
    split at h
    · cases h
    rename_i hpq
    split at h
    · cases h
    rename_i hqp
    split at h
    · cases h
    · rename_i hreplaces
      cases h
      exact .inr ⟨fun hfront => hpq (List.isPrefixOf_iff_prefix.2 hfront),
        fun hfront => hqp (List.isPrefixOf_iff_prefix.2 hfront), hreplaces, rfl⟩

theorem mem_of_find? {entries : List (Location × Entry)} {e : Entry} (h : find? l entries = some e) :
    (l, e) ∈ entries := by
  induction entries with
  | nil => cases h
  | cons f rest ih =>
    rw [find?] at h
    split at h
    · rename_i hl
      cases h
      rw [← hl]
      exact List.mem_cons_self
    · exact List.mem_cons_of_mem f (ih h)

/-- each entry says that it is no link and stands in a directory -/
def isTree (d : Disk) : Bool :=
  d.entries.all fun e =>
    match e.2 with
    | .link _ => false
    | _ => d.get? e.1.dropLast = some .directory

theorem tree_of_isTree (h : d.isTree = true) : d.Tree := by
  have hentry : ∀ l e, l ≠ [] → d.get? l = some e → (l, e) ∈ d.entries := by
    intro l e hl he
    rw [get?, if_neg hl] at he
    exact mem_of_find? he
  refine ⟨fun l target hlink => ?_, fun l name e he => ?_⟩
  · by_cases hl : l = []
    · rw [hl] at hlink
      cases hlink
    · cases List.all_eq_true.1 h _ (hentry l _ hl hlink)
  · have hhere := List.all_eq_true.1 h _ (hentry _ e (by simp) he)
    rw [List.dropLast_concat] at hhere
    cases e with
    | link target => cases hhere
    | file bytes => exact of_decide_eq_true hhere
    | directory => exact of_decide_eq_true hhere

/-- nothing goes where a directory has something in it -/
theorem not_replaces_of_below {entry : Entry} {x : Location} {e : Entry} (hx : x ≠ []) (h : d.get? (l ++ x) = some e) :
    d.replaces entry (.found l .directory) ≠ .ok () := by
  have hentry : (l ++ x, e) ∈ d.entries := by
    rw [get?, if_neg (by simp [hx])] at h
    exact mem_of_find? h
  have hmem : (x, e) ∈ d.below l := by
    refine List.mem_filterMap.2 ⟨_, hentry, ?_⟩
    rw [if_pos, List.drop_left]
    simp [List.length_pos_iff.2 hx]
  have hbelow : d.isEmptyAt l = false := by
    rw [isEmptyAt, List.isEmpty_eq_false_iff]
    exact List.ne_nil_of_mem hmem
  cases entry <;> simp [replaces, hbelow]

/-- what a renaming does: all that was at and below `p` is at and below `q` -/
structure Renamed (p q : Location) (d d' : Disk) : Prop where
  tree : d'.Tree
  not_inside : ¬ p <+: q
  not_around : ¬ q <+: p
  source : (d.get? p).isSome = true
  /-- a directory that was at `q` had nothing in it -/
  free : d.get? q = some .directory → ∀ x, x ≠ [] → d.get? (q ++ x) = none
  view : ∀ l, d'.get? l = if q <+: l then d.get? (p ++ l.drop q.length) else if p <+: l then none else d.get? l

/-- **What a renaming on a tree does.** -/
theorem renamed_of_rename (ht : d.Tree) {source target : String} {p q : Location}
    (hsource : Path.isAbsolute source = true) (htarget : Path.isAbsolute target = true)
    (hp : lexical [] (Text.splitAt '/' source) = p) (hq : lexical [] (Text.splitAt '/' target) = q) (hne : p ≠ q)
    (h : d.rename source target = .ok d') : Renamed p q d d' := by
  obtain ⟨p', entry, place, hfound, hplace, hmoved⟩ := rename_eq_ok h
  obtain ⟨hp', hentry⟩ := locate_tree ht hsource hfound
  obtain ⟨hq', hlocated⟩ := locate_tree ht htarget hplace
  rw [Place.location, hp] at hp'
  rw [hq] at hq'
  subst hp'
  subst hq'
  obtain ⟨hpq, hqp, hreplaces, rfl⟩ := hmoved.resolve_left hne
  have htop : place.location ≠ [] := fun h => hqp (h ▸ List.nil_prefix)
  obtain ⟨parent, name, hlocation, hparent⟩ :
      ∃ parent name, place.location = parent ++ [name] ∧ d.get? parent = some .directory := by
    cases place with
    | missing l slash => exact hlocated.2
    | found l e => exact ht.exists_parent htop hlocated
  refine ⟨ht.move hpq hqp hlocation hparent, hpq, hqp, by rw [show d.get? p' = some entry from hentry]; rfl,
    fun hdirectory x hx => ?_, get?_move hpq hqp⟩
  cases hbelow : d.get? (place.location ++ x) with
  | none => rfl
  | some e =>
    cases place with
    | missing l slash => cases hdirectory.symm.trans hlocated.1
    | found l e' =>
      cases hdirectory.symm.trans hlocated
      exact absurd hreplaces (not_replaces_of_below hx hbelow)

/-! ## Making directories -/

/-- `d'` has what `d` has, and besides that only directories on the way to `l` -/
structure Grown (l : Location) (d d' : Disk) : Prop where
  tree : d'.Tree
  keeps : ∀ m e, d.get? m = some e → d'.get? m = some e
  news : ∀ m, d.get? m = none → d'.get? m = none ∨ m <+: l ∧ d'.get? m = some .directory

theorem Grown.refl (ht : d.Tree) (l : Location) : Grown l d d := ⟨ht, fun _ _ h => h, fun _ h => .inl h⟩

theorem Grown.trans {d'' : Disk} {k : Location} (hkl : k <+: l) (h : Grown k d d') (h' : Grown l d' d'') :
    Grown l d d'' := by
  refine ⟨h'.tree, fun m e he => h'.keeps m e (h.keeps m e he), fun m hm => ?_⟩
  rcases h.news m hm with hnone | ⟨hfront, hdirectory⟩
  · exact h'.news m hnone
  · exact .inr ⟨hfront.trans hkl, h'.keeps m _ hdirectory⟩

/-- off the way nothing has changed -/
theorem Grown.get?_eq (h : Grown l d d') (hm : ¬ m <+: l) : d'.get? m = d.get? m := by
  cases hget : d.get? m with
  | some e => exact h.keeps m e hget
  | none => exact (h.news m hget).resolve_right fun hnew => hm hnew.1

/-- one directory more -/
theorem makeDirectory_grown (ht : d.Tree) (hl : PlainLocation l) (h : d.makeDirectory (pathOf l) = .ok d') :
    Grown l d d' := by
  rw [makeDirectory] at h
  split at h
  · cases h
  · cases h
  · rename_i m slash hplace
    cases h
    obtain ⟨rfl, hnone, parent, name, rfl, hparent⟩ := locate_pathOf ht hl hplace
    have hne : parent ++ [name] ≠ [] := by simp
    refine ⟨⟨fun k target hk => ?_, fun k n e hk => ?_⟩, fun k e hk => ?_, fun k hk => ?_⟩
    · rw [get?_set hne] at hk
      split at hk
      · cases hk
      · exact ht.no_link _ _ hk
    · rw [get?_set hne] at hk ⊢
      split at hk
      · rename_i hat
        have hk : parent = k := List.append_inj_left' hat rfl
        rw [← hk, hparent]
        split <;> rfl
      · rw [ht.closed _ _ _ hk]
        split <;> rfl
    · rw [get?_set hne, if_neg, hk]
      rintro rfl
      rw [hnone] at hk
      cases hk
    · rw [get?_set hne]
      split
      · rename_i hat
        exact .inr ⟨hat ▸ List.prefix_refl _, rfl⟩
      · exact .inl hk

theorem makeDirectoriesLoop_grown {fuel : Nat} (ht : d.Tree) (hl : PlainLocation l)
    (h : makeDirectoriesLoop fuel d (pathOf l) = .ok d') : Grown l d d' := by
  induction fuel generalizing l d' with
  | zero => cases h
  | succ fuel ih =>
    have hne : pathOf l ≠ "" := by
      rw [pathOf]
      simp
    rw [makeDirectoriesLoop, if_neg hne] at h
    split at h
    · rename_i hmade
      cases h
      exact makeDirectory_grown ht hl hmade
    · split at h
      · cases h
      · rename_i parent hparent
        obtain ⟨k, name, rfl⟩ : ∃ k name, l = k ++ [name] := by
          rcases List.eq_nil_or_concat l with rfl | ⟨k, name, rfl⟩
          · cases hparent
          · exact ⟨k, name, by simp⟩
        rw [Path.parent?_pathOf hl] at hparent
        cases hparent
        split at h
        · cases h
        · rename_i middle hmiddle
          have hgrown := ih hl.of_append_left hmiddle
          have hkl : k <+: k ++ [name] := List.prefix_append k [name]
          split at h
          · rename_i hmade
            cases h
            exact hgrown.trans hkl (makeDirectory_grown hgrown.tree hl hmade)
          · split at h
            · cases h
              exact hgrown.trans hkl (.refl hgrown.tree _)
            · cases h
    · split at h
      · cases h
        exact .refl ht l
      · cases h

/-- **Making directories adds directories on the way to a location and nothing else.** -/
theorem makeDirectories_grown (ht : d.Tree) (hl : PlainLocation l) (h : d.makeDirectories (pathOf l) = .ok d') :
    Grown l d d' :=
  makeDirectoriesLoop_grown ht hl h

end Isolation.Disk
