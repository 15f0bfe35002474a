/-
Where the tokens of a file stand. A step of the lexer takes no more bytes than there are, so that the tokens lie inside
the file, one behind the other.

- `step?_length_le`: a step takes bytes that are there.
- `lex?_inRow`: the spans of the tokens of a file are in a row inside it.
-/
import Isolation.Proofs.Source.NodeSpans
import Isolation.Source.Lexer
import Mathlib.Data.List.TakeWhile

namespace Isolation

namespace Lexer

/-! ## Words and numbers -/

theorem startsWith_length {bytes : List UInt8} {text : String} (h : startsWith bytes text = true) :
    (Utf8.encode text).length ≤ bytes.length :=
  (List.isPrefixOf_iff_prefix.1 h).length_le

theorem blankLength_le (bytes : List UInt8) : blankLength bytes ≤ bytes.length := by
  rw [blankLength]
  cases hfind : blanks.find? (·.isPrefixOf bytes) with
  | none => exact Nat.zero_le _
  | some blank =>
    have hfront := List.find?_some hfind
    exact (List.isPrefixOf_iff_prefix.1 hfront).length_le

theorem charLength_le (bytes : List UInt8) : charLength bytes ≤ bytes.length := by
  cases bytes with
  | nil => rfl
  | cons b rest =>
    rw [charLength, List.length_cons]
    cases Utf8.begin? b with
    | none => exact Nat.zero_le _
    | some p =>
      dsimp only
      split
      · omega
      · cases rest with
        | nil => exact Nat.zero_le _
        | cons c rest =>
          dsimp only
          split
          · rename_i hmore
            simp only [Bool.and_eq_true, decide_eq_true_eq, List.length_take] at hmore
            rw [List.length_cons]
            omega
          · exact Nat.zero_le _

theorem nameCharLength_le (first : Bool) (bytes : List UInt8) : nameCharLength first bytes ≤ bytes.length := by
  cases bytes with
  | nil => rfl
  | cons b rest =>
    rw [nameCharLength]
    split
    · split <;> simp
    · split
      · omega
      · exact charLength_le _

theorem wordRest_le (skip : Nat) (bytes : List UInt8) : wordRest skip bytes ≤ bytes.length := by
  fun_induction wordRest skip bytes with
  | case1 => rfl
  | case2 b rest k ih => rw [List.length_cons]; omega
  | case3 => omega
  | case4 b rest n _ ih => rw [List.length_cons]; omega

theorem wordLength_le (bytes : List UInt8) : wordLength bytes ≤ bytes.length := by
  have hchar := nameCharLength_le true bytes
  have hrest := fun n => wordRest_le n (bytes.drop 1)
  rw [wordLength]
  split
  · omega
  · rename_i n hn
    have hmore := hrest n
    rw [List.length_drop] at hmore
    omega

theorem head?_eq_some_length {bytes : List UInt8} {b : UInt8} (h : bytes.head? = some b) : 0 < bytes.length := by
  cases bytes with
  | nil => cases h
  | cons c rest => exact Nat.succ_pos _

theorem digitsLength_le (isDigit : UInt8 → Bool) (bytes : List UInt8) : digitsLength isDigit bytes ≤ bytes.length := by
  induction bytes with
  | nil => exact Nat.le_refl _
  | cons b rest ih =>
    rw [digitsLength, List.length_cons]
    split <;> omega

theorem digitsBehind_le (front : Nat) (isDigit : UInt8 → Bool) (bytes : List UInt8) :
    digitsBehind front isDigit bytes ≤ front + bytes.length := by
  have hdigits := digitsLength_le isDigit bytes
  rw [digitsBehind]
  split <;> omega

theorem exponentLength_le (bytes : List UInt8) : exponentLength bytes ≤ bytes.length := by
  cases bytes with
  | nil => exact Nat.le_refl _
  | cons e rest =>
    rw [exponentLength, List.length_cons]
    split
    · dsimp only
      split
      · rename_i hsign
        have hpos : 0 < rest.length := by
          rw [Bool.or_eq_true, decide_eq_true_eq, decide_eq_true_eq] at hsign
          exact hsign.elim head?_eq_some_length head?_eq_some_length
        have hdigits := digitsBehind_le (1 + 1) isDigitByte (rest.drop 1)
        rw [List.length_drop] at hdigits
        omega
      · have hdigits := digitsBehind_le (1 + 0) isDigitByte (rest.drop 0)
        rw [List.length_drop] at hdigits
        omega
    · exact Nat.zero_le _

theorem integerLength_le (bytes : List UInt8) : integerLength bytes ≤ bytes.length := by
  cases bytes with
  | nil => exact Nat.le_refl _
  | cons b rest =>
    have hbased : ∀ {x y : UInt8}, (decide (rest.head? = some x) || decide (rest.head? = some y)) = true →
        0 < rest.length ∧ (rest.drop 1).length + 1 = rest.length := by
      intro x y hbase
      rw [Bool.or_eq_true, decide_eq_true_eq, decide_eq_true_eq] at hbase
      have hpos : 0 < rest.length := hbase.elim head?_eq_some_length head?_eq_some_length
      exact ⟨hpos, by rw [List.length_drop]; omega⟩
    have hhex := digitsBehind_le 2 isHexByte (rest.drop 1)
    have hbinary := digitsBehind_le 2 isBinaryByte (rest.drop 1)
    have hoctal := digitsLength_le isOctalByte (rest.drop 1)
    have hplain := digitsLength_le isOctalByte rest
    have hdecimal := digitsLength_le isDigitByte rest
    rw [integerLength, List.length_cons]
    split
    · split
      · rename_i hbase
        have hlength := hbased hbase
        omega
      split
      · rename_i hbase
        have hlength := hbased hbase
        omega
      split
      · rename_i hbase
        have hlength := hbased hbase
        omega
      · omega
    · split <;> omega

theorem floatLength_le (bytes : List UInt8) : floatLength bytes ≤ bytes.length := by
  have hwhole := digitsLength_le isDigitByte bytes
  rw [floatLength]
  generalize digitsLength isDigitByte bytes = whole at hwhole
  have hfraction : (if (bytes.drop whole).head? = some (byteOf '.') then
      1 + digitsLength isDigitByte ((bytes.drop whole).drop 1) else 0) ≤ (bytes.drop whole).length := by
    split
    · rename_i hpoint
      have hpos := head?_eq_some_length hpoint
      have hdigits := digitsLength_le isDigitByte ((bytes.drop whole).drop 1)
      rw [List.length_drop] at hdigits
      omega
    · exact Nat.zero_le _
  generalize (if (bytes.drop whole).head? = some (byteOf '.') then
      1 + digitsLength isDigitByte ((bytes.drop whole).drop 1) else 0) = fraction at hfraction ⊢
  have hexponent := exponentLength_le ((bytes.drop whole).drop fraction)
  rw [List.length_drop] at hfraction hexponent
  rw [List.length_drop] at hexponent
  split <;> omega

theorem numberLength_le (bytes : List UInt8) : numberLength bytes ≤ bytes.length :=
  Nat.max_le.2 ⟨integerLength_le bytes, floatLength_le bytes⟩

/-! ## Comments and text outside the tags -/

theorem lineCommentLength_le (bytes : List UInt8) : lineCommentLength bytes ≤ bytes.length := by
  induction bytes with
  | nil => exact Nat.le_refl _
  | cons b rest ih =>
    rw [lineCommentLength, List.length_cons]
    split <;> omega

theorem blockCommentLength?_le {bytes : List UInt8} {n : Nat} (h : blockCommentLength? bytes = some n) :
    n ≤ bytes.length := by
  induction bytes generalizing n with
  | nil => cases h
  | cons b rest ih =>
    rw [blockCommentLength?] at h
    split at h
    · rename_i hclosed
      simp only [Bool.and_eq_true, decide_eq_true_eq] at hclosed
      cases h
      exact Nat.succ_le_succ (head?_eq_some_length hclosed.2)
    · obtain ⟨m, hm, rfl⟩ := Option.map_eq_some_iff.1 h
      exact Nat.succ_le_succ (ih hm)

theorem openTagLength_le {bytes : List UInt8} (h : 2 ≤ bytes.length) : openTagLength bytes ≤ bytes.length := by
  simp only [openTagLength]
  split
  · rename_i hphp
    have hlength := congrArg List.length hphp
    have hthree : (Utf8.encode "php").length = 3 := by decide
    rw [List.length_map, List.length_take, List.length_drop, hthree] at hlength
    omega
  · split
    · rename_i heq
      have hpos := head?_eq_some_length heq
      rw [List.length_drop] at hpos
      omega
    · exact h

theorem outsideLength_le (bytes : List UInt8) : outsideLength bytes ≤ bytes.length := by
  induction bytes with
  | nil => exact Nat.le_refl _
  | cons b rest ih =>
    rw [outsideLength]
    split
    · rename_i hopen
      simp only [Bool.and_eq_true, decide_eq_true_eq] at hopen
      exact openTagLength_le (Nat.succ_le_succ (head?_eq_some_length hopen.2))
    · rw [List.length_cons]
      omega

/-! ## Quoted texts -/

theorem singleQuotedLength?_le {escaped : Bool} {bytes : List UInt8} {n : Nat}
    (h : singleQuotedLength? escaped bytes = some n) : n ≤ bytes.length := by
  fun_induction singleQuotedLength? escaped bytes generalizing n with
  | case1 => cases h
  | case4 => cases h; exact Nat.succ_le_succ (Nat.zero_le _)
  | case2 _ _ ih | case3 _ _ _ ih | case5 _ _ _ _ _ _ ih =>
    obtain ⟨m, hm, rfl⟩ := Option.map_eq_some_iff.1 h
    exact Nat.succ_le_succ (ih hm)

theorem newlineLength_le (bytes : List UInt8) : newlineLength bytes ≤ bytes.length := by
  unfold newlineLength
  split
  · exact Nat.succ_le_succ (Nat.succ_le_succ (Nat.zero_le _))
  · rw [List.length_cons]
    split <;> omega
  · exact Nat.le_refl _

theorem heredocStart?_le {bytes : List UInt8} {start : HeredocStart} (h : heredocStart? bytes = some start) :
    start.length ≤ bytes.length := by
  have hlabel : ∀ (gap quote : Nat) (closed literal : Bool),
      (if (wordLength ((bytes.drop (3 + gap)).drop quote) > 0 && closed && newlineLength
            (((bytes.drop (3 + gap)).drop (quote + wordLength ((bytes.drop (3 + gap)).drop quote))).drop quote) > 0)
          then some (HeredocStart.mk
            (3 + gap + quote + wordLength ((bytes.drop (3 + gap)).drop quote) + quote + newlineLength
              (((bytes.drop (3 + gap)).drop (quote + wordLength ((bytes.drop (3 + gap)).drop quote))).drop quote))
            (((bytes.drop (3 + gap)).drop quote).take (wordLength ((bytes.drop (3 + gap)).drop quote))) literal)
          else none) = some start → start.length ≤ bytes.length := by
    intro gap quote closed literal hsome
    simp only [Option.ite_none_right_eq_some, Option.some.injEq, Bool.and_eq_true, decide_eq_true_eq,
      List.drop_drop] at hsome
    obtain ⟨⟨⟨hsize, -⟩, hline⟩, rfl⟩ := hsome
    have hword := wordLength_le (bytes.drop (3 + gap + quote))
    have hbreak := newlineLength_le
      (bytes.drop (3 + gap + (quote + wordLength (bytes.drop (3 + gap + quote))) + quote))
    rw [List.length_drop] at hword hbreak
    dsimp only
    omega
  simp only [heredocStart?] at h
  split at h
  · exact hlabel _ _ _ _ h
  · split at h <;> exact hlabel _ _ _ _ h

theorem heredocEndLength?_le {label bytes : List UInt8} {n : Nat} (h : heredocEndLength? label bytes = some n) :
    n ≤ bytes.length := by
  simp only [heredocEndLength?, Option.ite_none_right_eq_some, Option.some.injEq] at h
  obtain ⟨hlabel, rfl⟩ := h
  have htaken := congrArg List.length hlabel
  have hgap := (List.takeWhile_prefix (l := bytes) isSpaceOrTab).length_le
  rw [List.length_take, List.length_drop] at htaken
  omega

theorem closeLength?_le {kind : TextKind} {lineStart : Bool} {bytes : List UInt8} {n : Nat}
    (h : kind.closeLength? lineStart bytes = some n) : n ≤ bytes.length := by
  cases kind with
  | quoted quote =>
    simp only [TextKind.closeLength?, Option.ite_none_right_eq_some, Option.some.injEq] at h
    rw [← h.2]
    exact head?_eq_some_length h.1
  | heredoc label literal =>
    simp only [TextKind.closeLength?, Option.ite_none_right_eq_some] at h
    exact heredocEndLength?_le h.2

theorem scanText?_le {kind : TextKind} {lineStart : Bool} {bytes : List UInt8} {run : TextRun}
    (h : scanText? kind lineStart bytes = some run) : run.length ≤ bytes.length := by
  fun_induction scanText? kind lineStart bytes generalizing run with
  | case1 | case4 => cases h
  | case2 lineStart b rest n hclose =>
    cases h
    exact closeLength?_le hclose
  | case3 _ _ _ _ _ ih | case5 _ _ _ _ _ _ ih | case9 _ _ _ _ _ _ _ _ _ ih | case10 _ _ _ _ _ _ _ _ _ ih =>
    obtain ⟨inner, hinner, rfl⟩ := Option.map_eq_some_iff.1 h
    have hle := ih hinner
    exact Nat.succ_le_succ hle
  | case6 _ _ _ _ _ _ ih =>
    obtain ⟨inner, hinner, rfl⟩ := Option.map_eq_some_iff.1 h
    exact Nat.succ_le_succ (Nat.succ_le_succ (ih hinner))
  | case7 =>
    cases h
    exact Nat.le_add_left 1 _
  | case8 lineStart b rest _ _ _ _ hsplice =>
    cases h
    simp only [Bool.and_eq_true, decide_eq_true_eq] at hsplice
    exact Nat.succ_le_succ (head?_eq_some_length hsplice.2)

theorem textRun?_le {kind : TextKind} {lineStart : Bool} {bytes : List UInt8} {run : TextRun}
    (h : textRun? kind lineStart bytes = some run) : run.length ≤ bytes.length := by
  rw [textRun?, Option.filter_eq_some_iff] at h
  exact scanText?_le h.1

/-! ## Steps -/

variable {modes : List Mode} {s : Step} {bytes : List UInt8}

theorem quotedStep?_length_le {marker : Nat} (h : quotedStep? modes marker bytes = some s) :
    s.length ≤ bytes.length := by
  simp only [quotedStep?] at h
  split at h
  · rename_i hsingle
    obtain ⟨n, hn, rfl⟩ := Option.map_eq_some_iff.1 h
    have hquote : 1 ≤ (bytes.drop marker).length := startsWith_length hsingle
    have hle := singleQuotedLength?_le hn
    rw [List.length_drop] at hquote hle
    rw [List.length_drop] at hle
    dsimp only
    omega
  · split at h
    · rename_i hdouble
      obtain ⟨run, hrun, rfl⟩ := Option.map_eq_some_iff.1 h
      have hquote : 1 ≤ (bytes.drop marker).length := startsWith_length hdouble
      have hle := textRun?_le hrun
      rw [List.length_drop] at hquote hle
      rw [List.length_drop] at hle
      split <;> (dsimp only; omega)
    · cases h

theorem symbolStep?_length_le (h : symbolStep? modes bytes = some s) : s.length ≤ bytes.length := by
  unfold symbolStep? at h
  split at h
  · rename_i hopen
    cases h
    exact startsWith_length hopen
  · split at h
    · rename_i hclose
      have hone : 1 ≤ bytes.length := startsWith_length hclose
      split at h <;> (cases h; exact hone)
    · obtain ⟨entry, hentry, rfl⟩ := Option.map_eq_some_iff.1 h
      have hfound := List.find?_some hentry
      exact (List.isPrefixOf_iff_prefix.1 hfound).length_le

theorem heredocStep?_length_le {marker : Nat} (hmarker : marker ≤ bytes.length)
    (h : heredocStep? modes marker bytes = some s) : s.length ≤ bytes.length := by
  obtain ⟨start, hstart, rfl⟩ := Option.map_eq_some_iff.1 h
  have hle := heredocStart?_le hstart
  rw [List.length_drop] at hle
  dsimp only
  omega

theorem codeStep?_length_le (hne : bytes ≠ []) (h : codeStep? modes bytes = some s) : s.length ≤ bytes.length := by
  have hpos : 1 ≤ bytes.length := List.length_pos_iff.2 hne
  have hdropped : ∀ {n k : Nat}, k ≤ bytes.length → n ≤ (bytes.drop k).length → k + n ≤ bytes.length := by
    intro n k hk hn
    rw [List.length_drop] at hn
    omega
  -- the branches in their order, each by the bound of what it reads
  unfold codeStep? at h
  by_cases hblank : blankLength bytes > 0
  · rw [if_pos hblank] at h
    cases h
    exact blankLength_le bytes
  rw [if_neg hblank] at h
  by_cases hclose : startsWith bytes "?>" = true
  · rw [if_pos hclose] at h
    cases h
    exact hdropped (startsWith_length hclose) (outsideLength_le _)
  rw [if_neg hclose] at h
  by_cases hblock : startsWith bytes "/*" = true
  · rw [if_pos hblock] at h
    obtain ⟨n, hn, rfl⟩ := Option.map_eq_some_iff.1 h
    exact hdropped (startsWith_length hblock) (blockCommentLength?_le hn)
  rw [if_neg hblock] at h
  by_cases hline : (startsWith bytes "//" || (startsWith bytes "#" && !startsWith bytes "#[")) = true
  · rw [if_pos hline] at h
    cases h
    exact hdropped hpos (lineCommentLength_le _)
  rw [if_neg hline] at h
  by_cases hquote : (startsWith bytes "'" || startsWith bytes "\"") = true
  · rw [if_pos hquote] at h
    exact quotedStep?_length_le h
  rw [if_neg hquote] at h
  by_cases hmarked : (startsWith bytes "b'" || startsWith bytes "B'" || startsWith bytes "b\"" ||
      startsWith bytes "B\"") = true
  · rw [if_pos hmarked] at h
    exact quotedStep?_length_le h
  rw [if_neg hmarked] at h
  by_cases htick : startsWith bytes "\x60" = true
  · rw [if_pos htick] at h
    cases h
    exact hpos
  rw [if_neg htick] at h
  by_cases hvariable : (startsWith bytes "$" && decide (wordLength (bytes.drop 1) > 0)) = true
  · rw [if_pos hvariable] at h
    cases h
    exact hdropped hpos (wordLength_le _)
  rw [if_neg hvariable] at h
  by_cases hnumber : startsNumber bytes = true
  · rw [if_pos hnumber] at h
    cases h
    exact numberLength_le bytes
  rw [if_neg hnumber] at h
  by_cases hheredoc : (startsWith bytes "b<<<" || startsWith bytes "B<<<") = true
  · rw [if_pos hheredoc] at h
    exact heredocStep?_length_le hpos h
  rw [if_neg hheredoc] at h
  by_cases hword : wordLength bytes > 0
  · rw [if_pos hword] at h
    cases h
    exact wordLength_le bytes
  rw [if_neg hword] at h
  by_cases hplain : startsWith bytes "<<<" = true
  · rw [if_pos hplain] at h
    exact heredocStep?_length_le (Nat.zero_le _) h
  rw [if_neg hplain] at h
  exact symbolStep?_length_le h

/-- a step takes bytes that are there -/
theorem step?_length_le (hne : bytes ≠ []) (h : step? modes bytes = some s) : s.length ≤ bytes.length := by
  match modes with
  | [] => cases h
  | .code :: _ => exact codeStep?_length_le hne h
  | .splice :: _ => exact codeStep?_length_le hne h
  | .text kind lineStart :: below =>
    obtain ⟨run, hrun, rfl⟩ := Option.map_eq_some_iff.1 h
    have hle := textRun?_le hrun
    split <;> exact hle

/-! ## Tokens -/

/-- the bytes behind a step end where the bytes in front of it do -/
theorem drop_end {pos : Nat} {b : UInt8} {rest : List UInt8} (h : step? modes (b :: rest) = some s) :
    pos + max 1 s.length + ((b :: rest).drop (max 1 s.length)).length = pos + (b :: rest).length := by
  have hle := step?_length_le (List.cons_ne_nil b rest) h
  rw [List.length_drop, List.length_cons] at *
  omega

/-- the tokens from a position on are in a row there, in front of the end of the bytes -/
theorem lexFrom_inRow {pos : Nat} {afterClose : Bool} {made all : List Token}
    (h : lexFrom pos modes afterClose made bytes = some all) :
    ∃ ts, all = made.reverse ++ ts ∧ InRow pos (pos + bytes.length) (ts.map Token.span) := by
  fun_induction lexFrom pos modes afterClose made bytes with
  | case1 pos modes afterClose made _ =>
    simp only [Option.some.injEq] at h
    exact ⟨[⟨.endOfFile, ⟨pos, pos⟩, "", afterClose⟩], by rw [← h, List.reverse_cons], by simp [InRow]⟩
  | case2 => cases h
  | case3 => cases h
  | case4 pos modes afterClose made b rest s hstep n _ ih =>
    obtain ⟨ts, hall, hrow⟩ := ih h
    refine ⟨ts, hall, ?_⟩
    rw [show pos + n + _ = _ from drop_end hstep] at hrow
    exact hrow.lower (Nat.le_add_right pos n)
  | case5 pos modes afterClose made b rest s hstep n kind text _ ih =>
    obtain ⟨ts, hall, hrow⟩ := ih h
    refine ⟨⟨kind, ⟨pos, pos + n⟩, text, afterClose⟩ :: ts, by rw [hall]; simp, ?_⟩
    rw [show pos + n + _ = _ from drop_end hstep] at hrow
    exact ⟨le_refl pos, Nat.le_add_right pos n, hrow⟩

/-- the tokens of a file stand inside it, one behind the other -/
theorem lex?_inRow {source : List UInt8} {ts : List Token} (h : lex? source = some ts) :
    InRow 0 source.length (ts.map Token.span) := by
  obtain ⟨made, rfl, hrow⟩ := lexFrom_inRow h
  have hle := outsideLength_le source
  rw [List.length_drop, Nat.add_sub_cancel' hle] at hrow
  exact hrow.lower (Nat.zero_le _)

end Lexer

end Isolation
