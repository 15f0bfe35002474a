/-
What a write does to a disk, by paths.

- `get?_set`: the view on a disk with one entry put.
- `read_of_write`: a path that was written reads as what was written, whatever links it leads through.
- `locate_set`: where a file takes the place of a file, every path leads where it led.
-/
import Isolation.Composer.Project

namespace Isolation.Disk

variable {d : Disk} {l m : Location}

theorem find?_insertEntry (l m : Location) (e : Entry) (entries : List (Location × Entry)) :
    find? m (insertEntry l e entries) = if l = m then some e else find? m entries := by
  induction entries with
  | nil => rfl
  | cons f rest ih =>
    rw [insertEntry]
    by_cases hl : f.1 = l
    · rw [if_pos hl, find?, find?, hl]
      split <;> rfl
    · rw [if_neg hl, find?, find?, ih]
      by_cases hm : f.1 = m
      · rw [if_pos hm, if_pos hm, if_neg fun hlm => hl (hm.trans hlm.symm)]
      · rw [if_neg hm, if_neg hm]

theorem get?_set (hl : l ≠ []) (e : Entry) : (d.set l e).get? m = if l = m then some e else d.get? m := by
  rw [get?, get?, set, find?_insertEntry]
  by_cases hm : m = []
  · rw [if_pos hm, if_pos hm, if_neg fun hlm => hl (hlm.trans hm)]
  · rw [if_neg hm, if_neg hm]

/-! ## Reading what was written -/

/-- what a place says is what is there; where a walk came back up nothing is said -/
def Holds (d : Disk) : Place → Prop
  | .found _ .directory => True
  | .found l entry => d.get? l = some entry
  | .missing l _ => d.get? l = none

/-- a place where a file can be written: a file, or nothing with no separator behind its name -/
def Writable : Place → Prop
  | .found _ (.file _) => True
  | .found _ _ => False
  | .missing _ slash => slash = false

/-- there is nothing but a file at a place where a file can be written -/
theorem Writable.file_of_get? {place : Place} {e : Entry} (hplace : Writable place) (hholds : d.Holds place)
    (he : d.get? place.location = some e) : ∃ old, e = .file old := by
  cases place with
  | missing l slash => cases hholds.symm.trans he
  | found l entry =>
    cases entry with
    | file old => exact ⟨old, (Option.some.inj (hholds.symm.trans he)).symm⟩
    | directory => exact hplace.elim
    | link target => exact hplace.elim

section Walks

variable {follow : Bool} {next next' : Location → List String → Except SystemError Place} {here : Location}
  {names : List String} {place : Place} {bytes : List UInt8}

theorem walkNames_holds (hnext : ∀ here names, next here names = .ok place → d.Holds place)
    (h : d.walkNames follow next here names = .ok place) : d.Holds place := by
  induction names generalizing here with
  | nil =>
    cases h
    exact trivial
  | cons name rest ih =>
    rw [walkNames] at h
    split at h
    · exact ih h
    split at h
    · exact ih h
    split at h
    · rename_i hget
      split at h
      · cases h
        exact hget
      · cases h
    · exact ih h
    · rename_i hget
      split at h
      · cases h
        exact hget
      · cases h
    · rename_i hget
      split at h
      · cases h
        exact hget
      · exact hnext _ _ h

theorem walk_holds {links : Nat} (h : d.walk follow links here names = .ok place) : d.Holds place := by
  induction links generalizing here names with
  | zero =>
    rw [walk] at h
    refine walkNames_holds ?_ h
    exact fun _ _ hnext => nomatch hnext
  | succ links ih => exact walkNames_holds (fun _ _ hnext => ih hnext) h

/-- Neither a directory nor a link is in the way of the walk where the file goes, so the walk ends there as before. -/
theorem walkNames_set (hplace : Writable place) (hholds : d.Holds place)
    (hnext : ∀ here names, next here names = .ok place →
      next' here names = .ok (.found place.location (.file bytes)))
    (h : d.walkNames follow next here names = .ok place) :
    (d.set place.location (.file bytes)).walkNames follow next' here names =
      .ok (.found place.location (.file bytes)) := by
  have hfree := fun e => hplace.file_of_get? hholds (e := e)
  have hl : place.location ≠ [] := by
    intro hl
    obtain ⟨old, hold⟩ := hfree .directory (by rw [hl]; rfl)
    cases hold
  have hother : ∀ {m e}, d.get? m = some e → (∀ old, e ≠ .file old) →
      (d.set place.location (.file bytes)).get? m = some e := by
    intro m e hm he
    rw [get?_set hl, if_neg, hm]
    rintro rfl
    obtain ⟨old, rfl⟩ := hfree e hm
    exact he old rfl
  induction names generalizing here with
  | nil =>
    cases h
    exact hplace.elim
  | cons name rest ih =>
    rw [walkNames] at h ⊢
    by_cases hskip : (name = "" || name = ".") = true
    · rw [if_pos hskip] at h ⊢
      exact ih h
    rw [if_neg hskip] at h ⊢
    by_cases hup : name = ".."
    · rw [if_pos hup] at h ⊢
      exact ih h
    rw [if_neg hup] at h ⊢
    cases hget : d.get? (here ++ [name]) with
    | none =>
      rw [hget] at h
      dsimp only at h
      split at h
      · cases h
        have hrest : rest.isEmpty = true := by simpa [Writable] using hplace
        rw [get?_set hl, Place.location, if_pos rfl]
        exact if_pos hrest
      · cases h
    | some e =>
      rw [hget] at h
      cases e with
      | directory =>
        rw [hother hget nofun]
        exact ih h
      | file old =>
        dsimp only at h
        split at h
        · rename_i hrest
          cases h
          rw [get?_set hl, Place.location, if_pos rfl]
          exact if_pos hrest
        · cases h
      | link target =>
        rw [hother hget nofun]
        dsimp only at h ⊢
        split at h
        · cases h
          exact hplace.elim
        · rename_i hlast
          rw [if_neg hlast]
          exact hnext _ _ h

theorem walk_set {links : Nat} (hplace : Writable place) (h : d.walk follow links here names = .ok place) :
    (d.set place.location (.file bytes)).walk follow links here names = .ok (.found place.location (.file bytes)) := by
  have hholds := walk_holds h
  induction links generalizing here names with
  | zero =>
    rw [walk] at h ⊢
    refine walkNames_set hplace hholds ?_ h
    exact fun _ _ hnext => nomatch hnext
  | succ links ih => exact walkNames_set hplace hholds (fun _ _ hnext => ih hnext) h

end Walks

theorem holds_locate {path : String} {follow : Bool} {place : Place} (h : d.locate follow path = .ok place) :
    d.Holds place := by
  rw [locate] at h
  split at h
  · cases h
  · exact walk_holds h

theorem write_eq_ok {path : String} {bytes : List UInt8} {d' : Disk} (h : d.write path bytes = .ok d') :
    ∃ place, d.locate true path = .ok place ∧ Writable place ∧ d' = d.set place.location (.file bytes) := by
  rw [write] at h
  split at h
  · cases h
  · rename_i l old hplace
    cases h
    exact ⟨_, hplace, trivial, rfl⟩
  · cases h
  · rename_i l slash hplace
    split at h
    · cases h
    · rename_i hslash
      cases h
      exact ⟨_, hplace, by simpa [Writable] using hslash, rfl⟩

/-- **A path that was written reads as what was written.** -/
theorem read_of_write {path : String} {bytes : List UInt8} {d' : Disk} (h : d.write path bytes = .ok d') :
    d'.read path = .ok bytes := by
  obtain ⟨place, hplace, hwritable, rfl⟩ := write_eq_ok h
  have hfound : (d.set place.location (.file bytes)).locate true path = .ok (.found place.location (.file bytes)) := by
    rw [locate] at hplace ⊢
    split at hplace
    · cases hplace
    · rename_i hpath
      rw [if_neg hpath]
      exact walk_set hwritable hplace
  rw [read, openAt, hfound]

/-! ## Other paths -/

/-- the place after the file at `l` got other contents -/
def updated (l : Location) (bytes : List UInt8) : Place → Place
  | .found m entry => .found m (if m = l then .file bytes else entry)
  | .missing m slash => .missing m slash

section Walks

variable {follow : Bool} {next next' : Location → List String → Except SystemError Place} {here : Location}
  {old bytes : List UInt8}

/-- A walk is never below a file, so it passes the file only by ending there. -/
theorem walkNames_updated (hold : d.get? l = some (.file old))
    (hnext : ∀ here names, ¬ l <+: here → next' here names = (next here names).map (updated l bytes))
    (hhere : ¬ l <+: here) (names : List String) :
    (d.set l (.file bytes)).walkNames follow next' here names =
      (d.walkNames follow next here names).map (updated l bytes) := by
  have hl : l ≠ [] := by
    rintro rfl
    cases hold
  induction names generalizing here with
  | nil =>
    have hne : here ≠ l := fun heq => hhere (heq ▸ List.prefix_refl here)
    rw [walkNames, walkNames, Except.map, updated, if_neg hne]
  | cons name rest ih =>
    rw [walkNames, walkNames]
    by_cases hskip : (name = "" || name = ".") = true
    · rw [if_pos hskip, if_pos hskip]
      exact ih hhere
    rw [if_neg hskip, if_neg hskip]
    by_cases hup : name = ".."
    · rw [if_pos hup, if_pos hup]
      exact ih fun hfront => hhere (hfront.trans (List.dropLast_prefix here))
    rw [if_neg hup, if_neg hup]
    by_cases hat : l = here ++ [name]
    · rw [get?_set hl, if_pos hat, ← hat, hold]
      dsimp only
      split
      · rw [Except.map, updated, if_pos rfl]
      · rfl
    rw [get?_set hl, if_neg hat]
    have hbelow : ¬ l <+: here ++ [name] := fun hfront =>
      (List.prefix_concat_iff.1 hfront).elim hat hhere
    cases hget : d.get? (here ++ [name]) with
    | none =>
      dsimp only
      split <;> rfl
    | some e =>
      cases e with
      | directory => exact ih hbelow
      | file contents =>
        dsimp only
        split
        · rw [Except.map, updated, if_neg (Ne.symm hat)]
        · rfl
      | link target =>
        dsimp only
        split
        · rw [Except.map, updated, if_neg (Ne.symm hat)]
        · refine hnext _ _ fun hfront => ?_
          split at hfront
          · exact hl (List.prefix_nil.1 hfront)
          · exact hhere hfront

theorem walk_updated (hold : d.get? l = some (.file old)) (hhere : ¬ l <+: here) (links : Nat) (names : List String) :
    (d.set l (.file bytes)).walk follow links here names = (d.walk follow links here names).map (updated l bytes) := by
  induction links generalizing here names with
  | zero =>
    rw [walk, walk]
    refine walkNames_updated hold ?_ hhere names
    exact fun _ _ _ => rfl
  | succ links ih => exact walkNames_updated hold (fun _ _ hhere => ih hhere _) hhere names

end Walks

variable {old : List UInt8}

/-- **Where a file takes the place of a file, every path leads where it led.** -/
theorem locate_set (hold : d.get? l = some (.file old)) {path : String}
    (hpath : Text.startsWith path "/" = true ∨ ¬ l <+: d.current) (follow : Bool) (bytes : List UInt8) :
    (d.set l (.file bytes)).locate follow path = (d.locate follow path).map (updated l bytes) := by
  rw [locate, locate]
  by_cases hempty : path = ""
  · rw [if_pos hempty, if_pos hempty]
    rfl
  rw [if_neg hempty, if_neg hempty]
  refine walk_updated hold (fun hfront => ?_) _ _
  by_cases habsolute : Text.startsWith path "/" = true
  · rw [if_pos habsolute] at hfront
    rw [List.prefix_nil.1 hfront] at hold
    cases hold
  · rw [if_neg habsolute] at hfront
    exact hpath.elim habsolute fun hcurrent => hcurrent hfront

theorem canonicalize_set (hold : d.get? l = some (.file old)) {path : String}
    (hpath : Text.startsWith path "/" = true ∨ ¬ l <+: d.current) (bytes : List UInt8) :
    (d.set l (.file bytes)).canonicalize path = d.canonicalize path := by
  rw [canonicalize, canonicalize, locate_set hold hpath]
  cases d.locate true path with
  | error e => rfl
  | ok place => cases place <;> rfl

theorem read_eq_ok {path : String} {contents : List UInt8} :
    d.read path = .ok contents ↔ ∃ m, d.locate true path = .ok (.found m (.file contents)) := by
  rw [read, openAt]
  cases d.locate true path with
  | error e => simp
  | ok place =>
    cases place with
    | missing m slash => simp
    | found m entry => cases entry <;> simp

/-- a file reads as before, or it is the one that was written -/
theorem read_set (hold : d.get? l = some (.file old)) {path : String} {contents : List UInt8}
    (hpath : Text.startsWith path "/" = true ∨ ¬ l <+: d.current) (h : d.read path = .ok contents)
    (bytes : List UInt8) :
    (d.set l (.file bytes)).read path = .ok contents ∨
      contents = old ∧ (d.set l (.file bytes)).read path = .ok bytes := by
  obtain ⟨m, hm⟩ := read_eq_ok.1 h
  have hset := locate_set hold hpath true bytes
  rw [hm, Except.map, updated] at hset
  by_cases hml : m = l
  · rw [if_pos hml] at hset
    have hthere : d.get? m = some (.file contents) := holds_locate hm
    rw [hml, hold] at hthere
    cases hthere
    exact .inr ⟨rfl, read_eq_ok.2 ⟨m, hset⟩⟩
  · rw [if_neg hml] at hset
    exact .inl (read_eq_ok.2 ⟨m, hset⟩)

end Isolation.Disk

namespace Isolation.SourceFile

theorem read_of_writeIfChanged {d d' : Disk} {path : String} {contents : List UInt8} {changed : Bool}
    (h : writeIfChanged d path contents = .ok (changed, d')) : d'.read path = .ok contents := by
  rw [writeIfChanged] at h
  split at h
  · rename_i hsame
    cases h
    cases hread : d.read path with
    | error e => rw [hread] at hsame; cases hsame
    | ok bytes => rw [hread] at hsame; exact congrArg _ (Option.some.inj hsame)
  · split at h
    · rename_i hwritten
      cases h
      exact Disk.read_of_write hwritten
    · cases h

/-- A file that can be read can be written. The disk is as it was, or has other contents in the file. -/
theorem writeIfChanged_ok {d : Disk} {path : String} {old : List UInt8} (hold : d.read path = .ok old)
    (contents : List UInt8) :
    ∃ changed d', writeIfChanged d path contents = .ok (changed, d') ∧
      (d' = d ∨ ∃ l, d.get? l = some (.file old) ∧ d' = d.set l (.file contents)) := by
  obtain ⟨l, hl⟩ := Disk.read_eq_ok.1 hold
  rw [writeIfChanged, Disk.write, hl]
  split
  · exact ⟨false, d, rfl, .inl rfl⟩
  · exact ⟨true, _, rfl, .inr ⟨l, Disk.holds_locate hl, rfl⟩⟩

/-- nothing is written where the file holds the contents already -/
theorem writeIfChanged_of_read {d : Disk} {path : String} {contents : List UInt8} (h : d.read path = .ok contents) :
    writeIfChanged d path contents = .ok (false, d) := by
  rw [writeIfChanged, h]
  exact if_pos rfl

theorem readText_of_read {d : Disk} {path text : String} (h : d.read path = .ok (Utf8.encode text)) :
    readText d path = .ok text := by
  rw [readText, Disk.readText, h]
  dsimp only
  rw [Utf8.decode?_encode]
  rfl

end Isolation.SourceFile
