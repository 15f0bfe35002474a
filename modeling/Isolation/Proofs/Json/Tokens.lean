/-
From a written JSON value to its tokens.

- `tokensOf`: the tokens of a value, told by the value alone.
- `tokensFrom?_quoted`: a written text is read as that text, whatever characters it holds.
- `tokensFrom?_prettyChars`: the written form of a value is read as the tokens of the value, if its numbers are read as
  themselves; what follows must not go on with the last token.
-/
import Isolation.Json.Printer
import Isolation.Json.Token
import Mathlib.Data.List.TakeWhile
import Mathlib.Tactic

namespace Isolation.Json

/-! ## Tokens and numbers of a value -/

mutual

/-- the tokens that a value is written with -/
def tokensOf : Json → List Token
  | .null => [.null]
  | .bool b => [.bool b]
  | .number n => [.number n]
  | .text s => [.text s]
  | .array [] => [.openArray, .closeArray]
  | .array (j :: rest) => .openArray :: (tokensOf j ++ tokensOfItems rest)
  | .object [] => [.openObject, .closeObject]
  | .object ((k, j) :: rest) => .openObject :: .text k :: .colon :: (tokensOf j ++ tokensOfEntries rest)

/-- the items behind the first -/
def tokensOfItems : List Json → List Token
  | [] => [.closeArray]
  | j :: rest => .comma :: (tokensOf j ++ tokensOfItems rest)

def tokensOfEntries : List (String × Json) → List Token
  | [] => [.closeObject]
  | (k, j) :: rest => .comma :: .text k :: .colon :: (tokensOf j ++ tokensOfEntries rest)

end

mutual

/-- the numbers in a value -/
def numbers : Json → List Number
  | .number n => [n]
  | .array items => numbersOfItems items
  | .object entries => numbersOfEntries entries
  | .null => []
  | .bool _ => []
  | .text _ => []

def numbersOfItems : List Json → List Number
  | [] => []
  | j :: rest => numbers j ++ numbersOfItems rest

def numbersOfEntries : List (String × Json) → List Number
  | [] => []
  | (_, j) :: rest => numbers j ++ numbersOfEntries rest

end

/-- the written form of the number is read as the number -/
def Number.ReadsBack (n : Number) : Prop := Number.ofChars? n.chars = some n

instance (n : Number) : Decidable n.ReadsBack := inferInstanceAs (Decidable (_ = _))

/-! ## Numbers and words -/

/-- what follows does not go on with a number or a word -/
def Delimited (rest : List Char) : Prop :=
  ∀ c ∈ rest.head?, Ascii.isLetter c = false ∧ Number.isNumberChar c = false

theorem delimited_cons {c : Char} {rest : List Char} (h : Ascii.isLetter c = false ∧ Number.isNumberChar c = false) :
    Delimited (c :: rest) := by
  intro d hd
  obtain rfl : c = d := by simpa using hd
  exact h

namespace Number

theorem isNumberChar_of_isDigit {c : Char} (h : Ascii.isDigit c = true) : isNumberChar c = true := by
  simp [isNumberChar, h]

theorem spanDigits_append (cs : List Char) : (spanDigits cs).1 ++ (spanDigits cs).2 = cs :=
  List.takeWhile_append_dropWhile

theorem isNumberChar_of_spanned {cs : List Char} {c : Char} (h : c ∈ (spanDigits cs).1) : isNumberChar c = true :=
  isNumberChar_of_isDigit (List.mem_takeWhile_imp h)

theorem exponentPart?_chars {negative : Bool} {digits : Digits} {cs : List Char} {n : Number}
    (h : exponentPart? negative digits cs = some n) : ∀ c ∈ cs, isNumberChar c = true := by
  have hdigits : ∀ {down : Bool} {ds : List Char},
      (if (spanDigits ds).1.isEmpty || !(spanDigits ds).2.isEmpty then none
        else withExponent? negative digits down (spanDigits ds).1) = some n → ∀ c ∈ ds, isNumberChar c = true := by
    intro down ds hread c hc
    split at hread
    · cases hread
    rename_i hrest
    simp only [Bool.or_eq_true, Bool.not_eq_true', not_or, Bool.not_eq_false] at hrest
    rw [← spanDigits_append ds, List.isEmpty_iff.1 hrest.2, List.append_nil] at hc
    exact isNumberChar_of_spanned hc
  unfold exponentPart? at h
  dsimp only at h
  split at h
  · exact List.forall_mem_cons.2 ⟨by decide, hdigits h⟩
  · exact List.forall_mem_cons.2 ⟨by decide, hdigits h⟩
  · exact hdigits h

/-- the part from the exponent on, with its letter -/
theorem exponent_chars {negative : Bool} {digits : Digits} {e : Char} {cs : List Char} {n : Number}
    (h : (if e = 'e' || e = 'E' then exponentPart? negative digits cs else none) = some n) :
    ∀ c ∈ e :: cs, isNumberChar c = true := by
  split at h
  · rename_i hletter
    simp only [Bool.or_eq_true, decide_eq_true_eq] at hletter
    refine List.forall_mem_cons.2 ⟨?_, exponentPart?_chars h⟩
    rcases hletter with rfl | rfl <;> decide
  · cases h

/-- a number without sign starts with a digit and holds number characters only -/
theorem unsigned?_chars {negative : Bool} {cs : List Char} {n : Number} (h : unsigned? negative cs = some n) :
    (∃ c ∈ cs.head?, Ascii.isDigit c = true) ∧ ∀ c ∈ cs, isNumberChar c = true := by
  have hsplit := spanDigits_append cs
  unfold unsigned? at h
  dsimp only at h
  split at h
  · cases h
  rename_i hfront
  have hhead : ∃ c ∈ cs.head?, Ascii.isDigit c = true := by
    cases hcs : (spanDigits cs).1 with
    | nil => simp [hcs] at hfront
    | cons c front =>
      have hmem : c ∈ (spanDigits cs).1 := by rw [hcs]; exact List.mem_cons_self
      exact ⟨c, by rw [← hsplit, hcs]; rfl, List.mem_takeWhile_imp hmem⟩
  have hrest : ∀ c ∈ (spanDigits cs).2, isNumberChar c = true := by
    split at h
    · rename_i hnil
      simp [hnil]
    · rename_i rest hdot
      split at h
      · cases h
      rw [hdot]
      refine List.forall_mem_cons.2 ⟨by decide, ?_⟩
      rw [← spanDigits_append rest]
      refine List.forall_mem_append.2 ⟨fun c hc => isNumberChar_of_spanned hc, ?_⟩
      split at h
      · rename_i hnil
        simp [hnil]
      · rename_i e exponent he
        rw [he]
        exact exponent_chars h
    · rename_i e exponent _ he
      rw [he]
      exact exponent_chars h
  refine ⟨hhead, ?_⟩
  rw [← hsplit]
  exact List.forall_mem_append.2 ⟨fun c hc => isNumberChar_of_spanned hc, hrest⟩

/-- a number starts with a digit or a sign and goes on with number characters -/
theorem ofChars?_chars {cs : List Char} {n : Number} (h : ofChars? cs = some n) :
    ∃ c rest, cs = c :: rest ∧ (Ascii.isDigit c = true ∨ c = '-') ∧ ∀ d ∈ rest, isNumberChar d = true := by
  unfold ofChars? at h
  split at h
  · rename_i rest
    exact ⟨'-', rest, rfl, .inr rfl, (unsigned?_chars h).2⟩
  · obtain ⟨⟨c, hc, hdigit⟩, hall⟩ := unsigned?_chars h
    obtain ⟨rest, rfl⟩ := List.head?_eq_some_iff.1 hc
    exact ⟨c, rest, rfl, .inl hdigit, (List.forall_mem_cons.1 hall).2⟩

end Number

/-- a digit or a sign begins a number -/
theorem stepBetween?_number {c : Char} (h : Ascii.isDigit c = true ∨ c = '-') :
    stepBetween? c = some ([], .numeral [c]) := by
  have hne : ∀ d, Ascii.isDigit d = false → d ≠ '-' → c ≠ d := by
    rintro d hdigit hminus rfl
    rcases h with h | h
    · rw [h] at hdigit
      cases hdigit
    · exact hminus h
  have hbegin : (Ascii.isDigit c || c = '-') = true := by simpa using h
  unfold stepBetween?
  split
  case h_8 =>
    rw [if_neg, if_pos hbegin]
    simp only [Bool.or_eq_true, decide_eq_true_eq, not_or]
    exact ⟨⟨⟨hne _ (by decide) (by decide), hne _ (by decide) (by decide)⟩, hne _ (by decide) (by decide)⟩,
      hne _ (by decide) (by decide)⟩
  all_goals exact absurd rfl (hne _ (by decide) (by decide))

/-- number characters are gathered -/
theorem tokensFrom?_numeral (done : List Token) (acc : List Char) {cs : List Char}
    (h : ∀ c ∈ cs, Number.isNumberChar c = true) (rest : List Char) :
    tokensFrom? (.numeral acc) done (cs ++ rest) = tokensFrom? (.numeral (cs.reverse ++ acc)) done rest := by
  induction cs generalizing acc with
  | nil => rfl
  | cons c cs ih =>
    rw [List.forall_mem_cons] at h
    rw [List.cons_append, tokensFrom?, step?, if_pos h.1]
    simpa using ih (c :: acc) h.2

/-- a token that what follows completes: then it is read as between tokens -/
theorem tokensFrom?_complete {mode : Mode} {t : Token} {rest : List Char} (hfinish : finish? mode = some [t])
    (hstep : ∀ c ∈ rest.head?, step? mode c = (stepBetween? c).map fun found => (t :: found.1, found.2))
    (done : List Token) : tokensFrom? mode done rest = tokensFrom? .between (t :: done) rest := by
  cases rest with
  | nil =>
    rw [tokensFrom?, tokensFrom?, hfinish]
    simp [finish?]
  | cons c rest =>
    rw [tokensFrom?, tokensFrom?, hstep c rfl]
    cases hbetween : stepBetween? c with
    | none => simp [step?, hbetween]
    | some found => simp [step?, hbetween]

theorem tokensFrom?_number {n : Number} (hread : n.ReadsBack) {rest : List Char} (hrest : Delimited rest)
    (done : List Token) :
    tokensFrom? .between done (n.chars ++ rest) = tokensFrom? .between (.number n :: done) rest := by
  obtain ⟨c, cs, hcs, hstart, hall⟩ := Number.ofChars?_chars hread
  have hchars : Number.ofChars? (cs.reverse ++ [c]).reverse = some n := by
    rw [List.reverse_append, List.reverse_reverse, List.reverse_singleton, List.singleton_append, ← hcs]
    exact hread
  rw [hcs, List.cons_append, tokensFrom?, step?, stepBetween?_number hstart]
  dsimp only
  rw [List.reverse_nil, List.nil_append, tokensFrom?_numeral _ _ hall]
  refine tokensFrom?_complete (by rw [finish?, hchars, Option.map_some]) (fun d hd => ?_) done
  rw [step?, (hrest d hd).2, hchars]
  cases stepBetween? d <;> rfl

/-- the end of a word that stands for a token -/
theorem tokensFrom?_word (letters : List Char) {t : Token} (hword : word? letters = some t) {rest : List Char}
    (hrest : Delimited rest) (done : List Token) :
    tokensFrom? (.word letters) done rest = tokensFrom? .between (t :: done) rest := by
  refine tokensFrom?_complete (by rw [finish?, hword, Option.map_some]) (fun d hd => ?_) done
  rw [step?, (hrest d hd).1, hword]
  cases stepBetween? d <;> rfl

theorem tokensFrom?_null {rest : List Char} (hrest : Delimited rest) (done : List Token) :
    tokensFrom? .between done ("null".toList ++ rest) = tokensFrom? .between (.null :: done) rest :=
  tokensFrom?_word ['l', 'l', 'u', 'n'] rfl hrest done

theorem tokensFrom?_bool (b : Bool) {rest : List Char} (hrest : Delimited rest) (done : List Token) :
    tokensFrom? .between done (boolChars b ++ rest) = tokensFrom? .between (.bool b :: done) rest := by
  cases b with
  | true => exact tokensFrom?_word ['e', 'u', 'r', 't'] rfl hrest done
  | false => exact tokensFrom?_word ['e', 's', 'l', 'a', 'f'] rfl hrest done

/-! ## Texts -/

theorem hexValue?_digitChar : ∀ k < 16, hexValue? (Nat.digitChar k) = some k := by decide

/-- a control character, written by its number -/
theorem tokensFrom?_unit {c : Char} (hc : c.toNat < 0x20) (done : List Token) (acc rest : List Char) :
    tokensFrom? (.string acc) done (['\\', 'u', '0', '0'] ++ hexDigits c.toNat ++ rest) =
      tokensFrom? (.string (c :: acc)) done rest := by
  have hhigh := hexValue?_digitChar (c.toNat / 16 % 16) (Nat.mod_lt _ (by decide))
  have hlow := hexValue?_digitChar (c.toNat % 16) (Nat.mod_lt _ (by decide))
  have hzeros : tokensFrom? (.string acc) done (['\\', 'u', '0', '0'] ++ hexDigits c.toNat ++ rest) =
      tokensFrom? (.unit acc none 2 0) done
        (Nat.digitChar (c.toNat / 16 % 16) :: Nat.digitChar (c.toNat % 16) :: rest) := rfl
  have hvalue : (0 * 16 + c.toNat / 16 % 16) * 16 + c.toNat % 16 = c.toNat := by omega
  have hmode : unitMode? acc none c.toNat = some (.string (c :: acc)) := by
    have hlow : ¬ 0xD800 ≤ c.toNat ∧ ¬ 0xDC00 ≤ c.toNat := by omega
    simp [unitMode?, hlow.1, hlow.2, Char.ofNat_toNat]
  rw [hzeros, tokensFrom?, step?, hhigh]
  simp only [Option.bind_eq_bind, Option.bind_some, Nat.reduceLT, if_true, pure]
  rw [tokensFrom?, step?, hlow]
  simp only [Option.bind_eq_bind, Option.bind_some, Nat.reduceAdd, Nat.lt_irrefl, if_false, hvalue, hmode, pure]
  rfl

/-- one character of a written text -/
theorem tokensFrom?_escapeChar (c : Char) (done : List Token) (acc rest : List Char) :
    tokensFrom? (.string acc) done (escapeChar c ++ rest) = tokensFrom? (.string (c :: acc)) done rest := by
  unfold escapeChar
  split
  case h_8 =>
    split
    · rename_i hcontrol
      exact tokensFrom?_unit hcontrol done acc rest
    · rename_i hquote hslash _ _ _ _ _ hplain
      rw [List.singleton_append, tokensFrom?, step?, if_neg hquote, if_neg hslash, if_neg hplain]
      rfl
  all_goals rfl

theorem tokensFrom?_flatMap_escapeChar (cs : List Char) (done : List Token) (acc rest : List Char) :
    tokensFrom? (.string acc) done (cs.flatMap escapeChar ++ rest) =
      tokensFrom? (.string (cs.reverse ++ acc)) done rest := by
  induction cs generalizing acc with
  | nil => rfl
  | cons c cs ih =>
    rw [List.flatMap_cons, List.append_assoc, tokensFrom?_escapeChar, ih]
    simp

/-- **A written text is read as that text.** -/
theorem tokensFrom?_quoted (s : String) (done : List Token) (rest : List Char) :
    tokensFrom? .between done (quoted s ++ rest) = tokensFrom? .between (.text s :: done) rest := by
  have hopen : tokensFrom? .between done (quoted s ++ rest) =
      tokensFrom? (.string []) done (s.toList.flatMap escapeChar ++ '"' :: rest) := by
    have hchars : quoted s ++ rest = '"' :: (s.toList.flatMap escapeChar ++ '"' :: rest) := by simp [quoted]
    rw [hchars, tokensFrom?]
    rfl
  rw [hopen, tokensFrom?_flatMap_escapeChar, tokensFrom?, step?, if_pos rfl]
  simp

/-! ## Whole values -/

/-- a character that is a token of its own -/
theorem tokensFrom?_mark {c : Char} {t : Token} (h : stepBetween? c = some ([t], .between)) (done : List Token)
    (rest : List Char) : tokensFrom? .between done (c :: rest) = tokensFrom? .between (t :: done) rest := by
  rw [tokensFrom?, step?, h]
  rfl

/-- the colon behind a key, with the blank behind it -/
theorem tokensFrom?_colon (done : List Token) (rest : List Char) :
    tokensFrom? .between done (':' :: ' ' :: rest) = tokensFrom? .between (.colon :: done) rest := rfl

theorem tokensFrom?_newLine (unit depth : Nat) (done : List Token) (rest : List Char) :
    tokensFrom? .between done (newLine unit depth ++ rest) = tokensFrom? .between done rest := by
  have hblanks : ∀ k, tokensFrom? .between done (List.replicate k ' ' ++ rest) = tokensFrom? .between done rest := by
    intro k
    induction k with
    | zero => rfl
    | succ k ih => exact ih
  exact hblanks (unit * depth)

theorem delimited_prettyItems (unit depth : Nat) (items : List Json) (rest : List Char) :
    Delimited (prettyItems unit depth items ++ rest) := by
  cases items <;> exact delimited_cons (by decide)

theorem delimited_prettyEntries (unit depth : Nat) (entries : List (String × Json)) (rest : List Char) :
    Delimited (prettyEntries unit depth entries ++ rest) := by
  cases entries with
  | nil => exact delimited_cons (by decide)
  | cons e entries => exact delimited_cons (by decide)

mutual

/-- **The written form of a value is read as its tokens.** -/
theorem tokensFrom?_prettyChars (unit depth : Nat) : (j : Json) → (∀ n ∈ j.numbers, n.ReadsBack) →
    ∀ {rest : List Char}, Delimited rest → ∀ done, tokensFrom? .between done (prettyChars unit depth j ++ rest) =
      tokensFrom? .between (j.tokensOf.reverse ++ done) rest
  | .null, _, _, hrest, done => tokensFrom?_null hrest done
  | .bool b, _, _, hrest, done => tokensFrom?_bool b hrest done
  | .number n, hnumbers, _, hrest, done => tokensFrom?_number (hnumbers n (by simp [numbers])) hrest done
  | .text s, _, rest, _, done => tokensFrom?_quoted s done rest
  | .array [], _, _, _, _ => rfl
  | .object [], _, _, _, _ => rfl
  | .array (j :: items), hnumbers, rest, _, done => by
    simp only [numbers, numbersOfItems, List.forall_mem_append] at hnumbers
    simp only [prettyChars, List.cons_append, List.append_assoc]
    rw [tokensFrom?_mark (t := .openArray) rfl, tokensFrom?_newLine,
      tokensFrom?_prettyChars unit (depth + 1) j hnumbers.1 (delimited_prettyItems unit depth items rest),
      tokensFrom?_prettyItems unit depth items hnumbers.2]
    simp [tokensOf]
  | .object ((k, j) :: entries), hnumbers, rest, _, done => by
    simp only [numbers, numbersOfEntries, List.forall_mem_append] at hnumbers
    simp only [prettyChars, List.cons_append, List.append_assoc]
    rw [tokensFrom?_mark (t := .openObject) rfl, tokensFrom?_newLine, tokensFrom?_quoted, tokensFrom?_colon,
      tokensFrom?_prettyChars unit (depth + 1) j hnumbers.1 (delimited_prettyEntries unit depth entries rest),
      tokensFrom?_prettyEntries unit depth entries hnumbers.2]
    simp [tokensOf]

/-- the items behind the first of an array -/
theorem tokensFrom?_prettyItems (unit depth : Nat) : (items : List Json) →
    (∀ n ∈ numbersOfItems items, n.ReadsBack) → ∀ (done : List Token) (rest : List Char),
    tokensFrom? .between done (prettyItems unit depth items ++ rest) =
      tokensFrom? .between ((tokensOfItems items).reverse ++ done) rest
  | [], _, done, rest => by
    rw [prettyItems, List.append_assoc, tokensFrom?_newLine]
    rfl
  | j :: items, hnumbers, done, rest => by
    simp only [numbersOfItems, List.forall_mem_append] at hnumbers
    simp only [prettyItems, List.cons_append, List.append_assoc]
    rw [tokensFrom?_mark (t := .comma) rfl, tokensFrom?_newLine,
      tokensFrom?_prettyChars unit (depth + 1) j hnumbers.1 (delimited_prettyItems unit depth items rest),
      tokensFrom?_prettyItems unit depth items hnumbers.2]
    simp [tokensOfItems]

/-- the entries behind the first of an object -/
theorem tokensFrom?_prettyEntries (unit depth : Nat) : (entries : List (String × Json)) →
    (∀ n ∈ numbersOfEntries entries, n.ReadsBack) → ∀ (done : List Token) (rest : List Char),
    tokensFrom? .between done (prettyEntries unit depth entries ++ rest) =
      tokensFrom? .between ((tokensOfEntries entries).reverse ++ done) rest
  | [], _, done, rest => by
    rw [prettyEntries, List.append_assoc, tokensFrom?_newLine]
    rfl
  | (k, j) :: entries, hnumbers, done, rest => by
    simp only [numbersOfEntries, List.forall_mem_append] at hnumbers
    simp only [prettyEntries, List.cons_append, List.append_assoc]
    rw [tokensFrom?_mark (t := .comma) rfl, tokensFrom?_newLine, tokensFrom?_quoted, tokensFrom?_colon,
      tokensFrom?_prettyChars unit (depth + 1) j hnumbers.1 (delimited_prettyEntries unit depth entries rest),
      tokensFrom?_prettyEntries unit depth entries hnumbers.2]
    simp [tokensOfEntries]

end

end Isolation.Json
