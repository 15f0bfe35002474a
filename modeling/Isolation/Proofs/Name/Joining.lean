/-
Joining, cutting and trimming names, on the characters of their texts.

- `joinSegments_append`, `joinSegments_split`: joining puts one separator between two rows of segments, and undoes
  cutting.
- `trimSeparators_front`: a text that starts and ends with something other than a separator stays at the front of
  whatever is put behind it, however much is trimmed.
- `trimSeparators_parts`: a text is what trimming leaves of it between two runs of separators.
- `ofSegments_eq_ok_iff`: which rows of segments are a namespace.
-/
import Isolation.Name.Namespace
import Isolation.Name.Policy
import Mathlib.Data.List.TakeWhile
import Mathlib.Tactic

namespace Isolation

theorem Text.startsWith_iff {s t : String} : startsWith s t = true ↔ t.toList <+: s.toList := by
  rw [startsWith, List.isPrefixOf_iff_prefix]

/-! ## Joining and cutting -/

theorem joinSegments_toList (segments : List String) :
    (joinSegments segments).toList = [separator].intercalate (segments.map String.toList) := by
  simp [joinSegments, Text.joinWith]

theorem joinSegments_cons_cons (s t : String) (rest : List String) :
    joinSegments (s :: t :: rest) = s ++ "\\" ++ joinSegments (t :: rest) := by
  apply String.toList_inj.mp
  simp [joinSegments_toList, List.intercalate_cons_cons, separator]

theorem joinSegments_singleton (s : String) : joinSegments [s] = s := by
  apply String.toList_inj.mp
  simp [joinSegments_toList, List.intercalate]

theorem joinSegments_append (a b : List String) (ha : a ≠ []) (hb : b ≠ []) :
    joinSegments (a ++ b) = joinSegments a ++ "\\" ++ joinSegments b := by
  induction a with
  | nil => exact absurd rfl ha
  | cons s rest ih =>
    cases rest with
    | nil =>
      obtain ⟨t, b, rfl⟩ := List.exists_cons_of_ne_nil hb
      rw [List.singleton_append, joinSegments_cons_cons, joinSegments_singleton]
    | cons t rest =>
      have ih := ih (by simp)
      rw [List.cons_append, List.cons_append, joinSegments_cons_cons, joinSegments_cons_cons, ← List.cons_append, ih]
      simp [String.append_assoc]

theorem splitSegments_ne_nil (s : String) : splitSegments s ≠ [] := by
  simp [splitSegments, Text.splitAt]

theorem joinSegments_split (s : String) : joinSegments (splitSegments s) = s := by
  apply String.toList_inj.mp
  have h : ∀ l : List (List Char), (l.map String.ofList).map String.toList = l := by simp
  rw [joinSegments_toList, splitSegments, Text.splitAt, h, List.intercalate_splitOn]

theorem splitSegments_join (segments : List String) (hne : segments ≠ [])
    (hsep : ∀ s ∈ segments, separator ∉ s.toList) : splitSegments (joinSegments segments) = segments := by
  rw [splitSegments, Text.splitAt, joinSegments_toList, List.splitOn_intercalate]
  · simp
  · simpa using hsep
  · simpa using hne

/-! ## Labels -/

theorem separator_not_labelRest : isLabelRest separator = false := by decide

theorem isLabelRest_of_start {c : Char} (h : isLabelStart c = true) : isLabelRest c = true := by
  simp only [isLabelStart, isLabelRest, Ascii.isWord, Bool.or_eq_true] at h ⊢
  tauto

theorem isLabel_cons {s : String} (h : isLabel s = true) :
    ∃ c cs, s.toList = c :: cs ∧ isLabelStart c = true ∧ ∀ d ∈ cs, isLabelRest d = true := by
  unfold isLabel at h
  cases hs : s.toList with
  | nil => simp [hs, isLabelChars] at h
  | cons c cs =>
    rw [hs] at h
    simp only [isLabelChars, Bool.and_eq_true, List.all_eq_true] at h
    exact ⟨c, cs, rfl, h.1, h.2⟩

theorem isLabel_rest {s : String} (h : isLabel s = true) : ∀ c ∈ s.toList, isLabelRest c = true := by
  obtain ⟨c, cs, hs, hc, hcs⟩ := isLabel_cons h
  intro d hd
  rw [hs] at hd
  rcases List.mem_cons.1 hd with rfl | hd
  · exact isLabelRest_of_start hc
  · exact hcs d hd

theorem separator_not_mem_label {s : String} (h : isLabel s = true) : separator ∉ s.toList := by
  intro hm
  have := isLabel_rest h _ hm
  rw [separator_not_labelRest] at this
  exact Bool.noConfusion this

theorem splitSegments_joinLabels {segments : List String} (hne : segments ≠ [])
    (h : segments.all isLabel = true) : splitSegments (joinSegments segments) = segments :=
  splitSegments_join segments hne fun s hs => separator_not_mem_label (List.all_eq_true.1 h s hs)

/-! ## Trimming -/

theorem trimSeparators_toList (s : String) :
    (trimSeparators s).toList = Text.trimEndChars (· == separator) (s.toList.dropWhile (· == separator)) := by
  simp [trimSeparators, Text.trimBoth]

theorem trimEndChars_append_of_last (p : Char → Bool) (front back : List Char) (c : Char)
    (hlast : front.getLast? = some c) (hc : p c = false) :
    Text.trimEndChars p (front ++ back) = front ++ Text.trimEndChars p back := by
  unfold Text.trimEndChars
  rw [List.reverse_append, List.dropWhile_append]
  have hfront : front.reverse.dropWhile p = front.reverse := by
    cases hr : front.reverse with
    | nil => rfl
    | cons d ds =>
      have hd : front.getLast? = some d := by rw [List.getLast?_eq_head?_reverse, hr]; rfl
      rw [hlast] at hd
      obtain rfl := Option.some.inj hd
      simp [hc]
  split
  · rename_i h
    have hnil : List.dropWhile p back.reverse = [] := by simpa using h
    simp [hnil, hfront]
  · simp

/-- a text whose ends are no separators, at the front of another one -/
structure Anchored (front : List Char) : Prop where
  first : ∃ c, front.head? = some c ∧ c ≠ separator
  last : ∃ c, front.getLast? = some c ∧ c ≠ separator

theorem Anchored.ne_nil {front : List Char} (h : Anchored front) : front ≠ [] := by
  obtain ⟨c, hc, -⟩ := h.first
  rintro rfl
  simp at hc

theorem Anchored.append {a b : List Char} (between : List Char) (ha : Anchored a) (hb : Anchored b) :
    Anchored (a ++ between ++ b) := by
  obtain ⟨c, hc, hcne⟩ := ha.first
  obtain ⟨d, hd, hdne⟩ := hb.last
  refine ⟨⟨c, ?_, hcne⟩, ⟨d, ?_, hdne⟩⟩
  · simp [List.append_assoc, List.head?_append, hc]
  · simp [List.getLast?_append, hd]

theorem anchored_label {s : String} (h : isLabel s = true) : Anchored s.toList := by
  have hne : ∀ c ∈ s.toList, c ≠ separator := fun c hc heq => separator_not_mem_label h (heq ▸ hc)
  obtain ⟨c, cs, hs, -, -⟩ := isLabel_cons h
  refine ⟨⟨c, by simp [hs], hne c (by simp [hs])⟩, ?_⟩
  have hlast := List.getLast?_eq_some_getLast (l := s.toList) (by simp [hs])
  exact ⟨_, hlast, hne _ (List.getLast_mem _)⟩

theorem anchored_joinLabels {segments : List String} (hne : segments ≠ []) (h : segments.all isLabel = true) :
    Anchored (joinSegments segments).toList := by
  induction segments with
  | nil => exact absurd rfl hne
  | cons s rest ih =>
    simp only [List.all_cons, Bool.and_eq_true] at h
    cases rest with
    | nil => rw [joinSegments_singleton]; exact anchored_label h.1
    | cons t rest =>
      rw [joinSegments_cons_cons, String.toList_append, String.toList_append]
      exact (anchored_label h.1).append _ (ih (by simp) h.2)

/-- trimming takes the leading separators, and nothing of an anchored text behind them -/
theorem trimSeparators_front {s : String} {seps front back : List Char} (hs : s.toList = seps ++ (front ++ back))
    (hseps : ∀ c ∈ seps, c = separator) (h : Anchored front) :
    ∃ tail, (trimSeparators s).toList = front ++ tail := by
  obtain ⟨c, hc, hne⟩ := h.first
  obtain ⟨d, hd, hdne⟩ := h.last
  have hdrop : s.toList.dropWhile (· == separator) = front ++ back := by
    rw [hs, List.dropWhile_append_of_pos (by simpa using hseps)]
    cases front with
    | nil => simp at hc
    | cons e es =>
      obtain rfl : e = c := by simpa using hc
      simp [hne]
  rw [trimSeparators_toList, hdrop, trimEndChars_append_of_last _ _ _ d hd (by simpa using hdne)]
  exact ⟨_, rfl⟩

/-- what trimming takes away are separators, and it leaves nothing or a text whose ends are none -/
theorem trimSeparators_parts (s : String) :
    ∃ lead back, s.toList = lead ++ (trimSeparators s).toList ++ back ∧ (∀ c ∈ lead, c = separator) ∧
      (∀ c ∈ back, c = separator) ∧ (trimSeparators s = "" ∨ Anchored (trimSeparators s).toList) := by
  obtain ⟨middle, hmiddle⟩ : ∃ middle, middle = s.toList.dropWhile (· == separator) := ⟨_, rfl⟩
  obtain ⟨rest, hrest⟩ : ∃ rest, rest = middle.reverse.dropWhile (· == separator) := ⟨_, rfl⟩
  have htrim : (trimSeparators s).toList = rest.reverse := by
    rw [trimSeparators_toList, ← hmiddle, Text.trimEndChars, ← hrest]
  have hback : middle = rest.reverse ++ (middle.reverse.takeWhile (· == separator)).reverse := by
    rw [← List.reverse_append, hrest, List.takeWhile_append_dropWhile, List.reverse_reverse]
  refine ⟨s.toList.takeWhile (· == separator), (middle.reverse.takeWhile (· == separator)).reverse, ?_, ?_, ?_, ?_⟩
  · rw [htrim, List.append_assoc, ← hback, hmiddle, List.takeWhile_append_dropWhile]
  · intro c hc
    simpa using List.mem_takeWhile_imp hc
  · intro c hc
    simpa using List.mem_takeWhile_imp (List.mem_reverse.1 hc)
  · rcases List.eq_nil_or_concat rest with hnil | ⟨init, first, hconcat⟩
    · left
      apply String.toList_inj.mp
      simp [htrim, hnil]
    · right
      rw [htrim]
      constructor
      · have hhead : middle.head? = some first := by
          rw [hback]
          simp [hconcat]
        have hnot := List.head?_dropWhile_not (· == separator) s.toList
        rw [← hmiddle, hhead] at hnot
        exact ⟨first, by simp [hconcat], by simpa using hnot⟩
      · obtain ⟨last, tail, hcons⟩ := List.exists_cons_of_ne_nil (l := rest) (by simp [hconcat])
        have hnot := List.head?_dropWhile_not (· == separator) middle.reverse
        rw [← hrest, hcons] at hnot
        exact ⟨last, by simp [hcons], by simpa using hnot⟩

/-! ## Rows that are a namespace -/

/-- a row is a namespace if it holds labels only, at least one -/
theorem Namespace.ofSegments_eq_ok_iff {segments : List String} {n : Namespace} :
    ofSegments segments = .ok n ↔ n.segments = segments ∧ segments ≠ [] ∧ segments.all isLabel = true := by
  have hfind : segments.find? (fun s => !isLabel s) = none ↔ segments.all isLabel = true := by simp
  rw [ofSegments]
  split
  · rename_i hempty
    simp [List.isEmpty_iff.1 hempty]
  · rename_i hempty
    rw [← hfind]
    cases segments.find? (fun s => !isLabel s) with
    | some bad => simp
    | none =>
      constructor
      · intro h
        cases h
        exact ⟨rfl, by simpa using hempty, rfl⟩
      · rintro ⟨rfl, -⟩
        rfl

end Isolation
