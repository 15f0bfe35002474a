/-
Reading what was written. A value is read back from its written form if its numbers are and no more containers stand
inside each other than a reader allows.

- `run?_tokensOf`: from the tokens of a value the reader makes the value, and goes on with what follows.
- `parse?_pretty`: the written form of a value is read as the value.
- `depth_le_of_parse?`: a value that was read is no deeper than allowed, so that the first statement applies to it.
-/
import Isolation.Json.Reader
import Isolation.Proofs.Json.Tokens

namespace Isolation.Json

/-! ## Depth -/

mutual

/-- how many containers stand inside each other -/
def depth : Json → Nat
  | .array items => depthOfItems items + 1
  | .object entries => depthOfEntries entries + 1
  | .null => 0
  | .bool _ => 0
  | .number _ => 0
  | .text _ => 0

def depthOfItems : List Json → Nat
  | [] => 0
  | j :: rest => max (depth j) (depthOfItems rest)

def depthOfEntries : List (String × Json) → Nat
  | [] => 0
  | (_, j) :: rest => max (depth j) (depthOfEntries rest)

end

theorem depthOfItems_le_iff {items : List Json} {n : Nat} : depthOfItems items ≤ n ↔ ∀ j ∈ items, j.depth ≤ n := by
  induction items with
  | nil => simp [depthOfItems]
  | cons j rest ih => rw [depthOfItems, max_le_iff, ih, List.forall_mem_cons]

theorem depthOfEntries_le_iff {entries : List (String × Json)} {n : Nat} :
    depthOfEntries entries ≤ n ↔ ∀ e ∈ entries, e.2.depth ≤ n := by
  induction entries with
  | nil => simp [depthOfEntries]
  | cons e rest ih => rw [depthOfEntries, max_le_iff, ih, List.forall_mem_cons]

/-! ## From tokens to values -/

/-- a value starts with a token that ends no container -/
theorem tokensOf_eq_cons (j : Json) : ∃ t ts, j.tokensOf = t :: ts ∧ ∀ frames, endContainer? frames t = none := by
  have hframes : ∀ {t : Token}, t ≠ .closeArray → t ≠ .closeObject → ∀ frames, endContainer? frames t = none := by
    intro t harray hobject frames
    unfold endContainer?
    split
    · exact absurd rfl harray
    · exact absurd rfl hobject
    · rfl
  match j with
  | .null => exact ⟨_, _, rfl, hframes (by simp) (by simp)⟩
  | .bool b => exact ⟨_, _, rfl, hframes (by simp) (by simp)⟩
  | .number n => exact ⟨_, _, rfl, hframes (by simp) (by simp)⟩
  | .text s => exact ⟨_, _, rfl, hframes (by simp) (by simp)⟩
  | .array [] => exact ⟨_, _, rfl, hframes (by simp) (by simp)⟩
  | .array (_ :: _) => exact ⟨_, _, by rw [tokensOf], hframes (by simp) (by simp)⟩
  | .object [] => exact ⟨_, _, rfl, hframes (by simp) (by simp)⟩
  | .object ((_, _) :: _) => exact ⟨_, _, by rw [tokensOf], hframes (by simp) (by simp)⟩

/-- behind an opening bracket a value is read as elsewhere -/
theorem run?_valueOrEnd (frames : List Frame) (j : Json) (rest : List Token) :
    Reading.run? ⟨frames, .valueOrEnd⟩ (j.tokensOf ++ rest) = Reading.run? ⟨frames, .value⟩ (j.tokensOf ++ rest) := by
  obtain ⟨t, ts, hts, hnone⟩ := tokensOf_eq_cons j
  simp [hts, Reading.run?, Reading.step?, hnone]

mutual

/-- **From the tokens of a value the reader makes the value.** -/
theorem run?_tokensOf : (j : Json) → ∀ (frames : List Frame) (rest : List Token),
    frames.length + j.depth ≤ depthLimit →
      Reading.run? ⟨frames, .value⟩ (j.tokensOf ++ rest) = (finish j frames).run? rest
  | .null, _, _, _ => rfl
  | .bool _, _, _, _ => rfl
  | .number _, _, _, _ => rfl
  | .text _, _, _, _ => rfl
  | .array [], frames, rest, hdepth => by
    have hroom : frames.length < depthLimit := by rw [depth] at hdepth; omega
    simp [tokensOf, Reading.run?, Reading.step?, startValue?, hroom, endContainer?]
  | .object [], frames, rest, hdepth => by
    have hroom : frames.length < depthLimit := by rw [depth] at hdepth; omega
    simp [tokensOf, Reading.run?, Reading.step?, startValue?, hroom, endContainer?]
  | .array (j :: items), frames, rest, hdepth => by
    rw [depth, depthOfItems] at hdepth
    have hopen : Reading.run? ⟨frames, .value⟩ (tokensOf (.array (j :: items)) ++ rest) =
        Reading.run? ⟨.array [] :: frames, .valueOrEnd⟩ (j.tokensOf ++ (tokensOfItems items ++ rest)) := by
      have hroom : frames.length < depthLimit := by omega
      simp [tokensOf, Reading.run?, Reading.step?, startValue?, hroom]
    rw [hopen, run?_valueOrEnd, run?_tokensOf j _ _ (by rw [List.length_cons]; omega), finish,
      run?_tokensOfItems items [j] frames rest (by omega)]
    rfl
  | .object ((k, j) :: entries), frames, rest, hdepth => by
    rw [depth, depthOfEntries] at hdepth
    have hopen : Reading.run? ⟨frames, .value⟩ (tokensOf (.object ((k, j) :: entries)) ++ rest) =
        Reading.run? ⟨.object [] k :: frames, .value⟩ (j.tokensOf ++ (tokensOfEntries entries ++ rest)) := by
      have hroom : frames.length < depthLimit := by omega
      simp [tokensOf, Reading.run?, Reading.step?, startValue?, hroom, endContainer?, startKey?]
    rw [hopen, run?_tokensOf j _ _ (by rw [List.length_cons]; omega), finish,
      run?_tokensOfEntries entries [(k, j)] k frames rest (by omega)]
    rfl

/-- the items behind the first, up to the closing bracket -/
theorem run?_tokensOfItems : (items : List Json) → ∀ (done : List Json) (frames : List Frame) (rest : List Token),
    frames.length + (depthOfItems items + 1) ≤ depthLimit →
      Reading.run? ⟨.array done :: frames, .more⟩ (tokensOfItems items ++ rest) =
        (finish (.array (done.reverse ++ items)) frames).run? rest
  | [], done, frames, rest, _ => by
    simp [tokensOfItems, Reading.run?, Reading.step?, endContainer?]
  | j :: items, done, frames, rest, hdepth => by
    rw [depthOfItems] at hdepth
    have hcomma : Reading.run? ⟨.array done :: frames, .more⟩ (tokensOfItems (j :: items) ++ rest) =
        Reading.run? ⟨.array done :: frames, .value⟩ (j.tokensOf ++ (tokensOfItems items ++ rest)) := by
      simp [tokensOfItems, Reading.run?, Reading.step?, endContainer?, next?]
    rw [hcomma, run?_tokensOf j _ _ (by rw [List.length_cons]; omega), finish,
      run?_tokensOfItems items (j :: done) frames rest (by omega)]
    simp

/-- the entries behind the first, up to the closing brace -/
theorem run?_tokensOfEntries : (entries : List (String × Json)) → ∀ (done : List (String × Json)) (key : String)
    (frames : List Frame) (rest : List Token), frames.length + (depthOfEntries entries + 1) ≤ depthLimit →
      Reading.run? ⟨.object done key :: frames, .more⟩ (tokensOfEntries entries ++ rest) =
        (finish (.object (done.reverse ++ entries)) frames).run? rest
  | [], done, key, frames, rest, _ => by
    simp [tokensOfEntries, Reading.run?, Reading.step?, endContainer?]
  | (k, j) :: entries, done, key, frames, rest, hdepth => by
    rw [depthOfEntries] at hdepth
    have hcomma : Reading.run? ⟨.object done key :: frames, .more⟩ (tokensOfEntries ((k, j) :: entries) ++ rest) =
        Reading.run? ⟨.object done k :: frames, .value⟩ (j.tokensOf ++ (tokensOfEntries entries ++ rest)) := by
      simp [tokensOfEntries, Reading.run?, Reading.step?, endContainer?, next?, startKey?]
    rw [hcomma, run?_tokensOf j _ _ (by rw [List.length_cons]; omega), finish,
      run?_tokensOfEntries entries ((k, j) :: done) k frames rest (by omega)]
    simp

end

/-- **The written form of a value is read as the value**, a line break at its end or not. -/
theorem parse?_pretty {j : Json} (hdepth : j.depth ≤ depthLimit) (hnumbers : ∀ n ∈ j.numbers, n.ReadsBack)
    (unit : Nat) : parse? (j.pretty unit ++ "\n") = some j := by
  have htokens : tokens? (prettyChars unit 0 j ++ ['\n']) = some j.tokensOf := by
    rw [tokens?, tokensFrom?_prettyChars unit 0 j hnumbers (delimited_cons (by decide))]
    simp [tokensFrom?, step?, stepBetween?, Json.finish?]
  have hrun : Reading.run? ⟨[], .value⟩ j.tokensOf = some ⟨[], .nothing j⟩ := by
    have hread := run?_tokensOf j [] [] (by simpa using hdepth)
    rwa [List.append_nil] at hread
  have hchars : (j.pretty unit ++ "\n").toList = prettyChars unit 0 j ++ ['\n'] := by simp [pretty]
  rw [parse?, hchars, ofChars?, htokens, Option.bind_some, hrun]

/-! ## Depth of what was read -/

/-- the contents of an unfinished container are at most this deep -/
def Frame.Within (n : Nat) : Frame → Prop
  | .array items => ∀ j ∈ items, j.depth ≤ n
  | .object entries _ => ∀ e ∈ entries, e.2.depth ≤ n

/-- the containers around a place, and all they hold, are no deeper than allowed -/
def FramesFit : List Frame → Prop
  | [] => True
  | frame :: rest => rest.length < depthLimit ∧ frame.Within (depthLimit - rest.length - 1) ∧ FramesFit rest

theorem FramesFit.length_le {frames : List Frame} (h : FramesFit frames) : frames.length ≤ depthLimit := by
  cases frames with
  | nil => exact Nat.zero_le _
  | cons frame rest => exact h.1

structure Reading.Fits (r : Reading) : Prop where
  frames : FramesFit r.frames
  value : ∀ j, r.need = .nothing j → j.depth ≤ depthLimit

theorem fits_finish {j : Json} {frames : List Frame} (hframes : FramesFit frames)
    (hdepth : frames.length + j.depth ≤ depthLimit) : (finish j frames).Fits := by
  cases frames with
  | nil =>
    refine ⟨trivial, fun k hk => ?_⟩
    obtain rfl : j = k := by simpa [finish] using hk
    simpa using hdepth
  | cons frame rest =>
    obtain ⟨hroom, hwithin, hrest⟩ := hframes
    rw [List.length_cons] at hdepth
    cases frame with
    | array items =>
      exact ⟨⟨hroom, List.forall_mem_cons.2 ⟨by omega, hwithin⟩, hrest⟩, by simp [finish]⟩
    | object entries key =>
      exact ⟨⟨hroom, List.forall_mem_cons.2 ⟨by dsimp only; omega, hwithin⟩, hrest⟩, by simp [finish]⟩

theorem fits_startValue? {frames : List Frame} {t : Token} {r : Reading} (hframes : FramesFit frames)
    (h : startValue? frames t = some r) : r.Fits := by
  have hroom := hframes.length_le
  have hflat : ∀ j : Json, j.depth = 0 → (finish j frames).Fits := by
    intro j hj
    exact fits_finish hframes (by omega)
  unfold startValue? at h
  split at h
  · cases h; exact hflat _ rfl
  · cases h; exact hflat _ rfl
  · cases h; exact hflat _ rfl
  · cases h; exact hflat _ rfl
  · split at h
    · rename_i hless
      cases h
      exact ⟨⟨hless, by simp [Frame.Within], hframes⟩, by simp⟩
    · cases h
  · split at h
    · rename_i hless
      cases h
      exact ⟨⟨hless, by simp [Frame.Within], hframes⟩, by simp⟩
    · cases h
  · cases h

theorem fits_endContainer? {frames : List Frame} {t : Token} {r : Reading} (hframes : FramesFit frames)
    (h : endContainer? frames t = some r) : r.Fits := by
  unfold endContainer? at h
  split at h
  · cases h
    obtain ⟨hroom, hwithin, hrest⟩ := hframes
    refine fits_finish hrest ?_
    have hdepth : depthOfItems (List.reverse _) ≤ _ :=
      depthOfItems_le_iff.2 fun j hj => hwithin j (List.mem_reverse.1 hj)
    rw [depth]
    omega
  · cases h
    obtain ⟨hroom, hwithin, hrest⟩ := hframes
    refine fits_finish hrest ?_
    have hdepth : depthOfEntries (List.reverse _) ≤ _ :=
      depthOfEntries_le_iff.2 fun e he => hwithin e (List.mem_reverse.1 he)
    rw [depth]
    omega
  · cases h

theorem fits_startKey? {frames : List Frame} {t : Token} {r : Reading} (hframes : FramesFit frames)
    (h : startKey? frames t = some r) : r.Fits := by
  unfold startKey? at h
  split at h
  · cases h
    exact ⟨hframes, by simp⟩
  · cases h

theorem fits_next? {frames : List Frame} {t : Token} {r : Reading} (hframes : FramesFit frames)
    (h : next? frames t = some r) : r.Fits := by
  unfold next? at h
  split at h
  · cases h
    exact ⟨hframes, by simp⟩
  · cases h
    exact ⟨hframes, by simp⟩
  · cases h

/-- one token -/
theorem Reading.Fits.step {r s : Reading} {t : Token} (h : r.Fits) (hstep : r.step? t = some s) : s.Fits := by
  have hor : ∀ {a b : Option Reading}, (a <|> b) = some s → a = some s ∨ b = some s := by
    intro a b hab
    cases a with
    | none => exact .inr hab
    | some x => exact .inl hab
  unfold Reading.step? at hstep
  split at hstep
  · exact fits_startValue? h.frames hstep
  · rcases hor hstep with hstep | hstep
    · exact fits_endContainer? h.frames hstep
    · exact fits_startValue? h.frames hstep
  · exact fits_startKey? h.frames hstep
  · rcases hor hstep with hstep | hstep
    · exact fits_endContainer? h.frames hstep
    · exact fits_startKey? h.frames hstep
  · split at hstep
    · cases hstep
      exact ⟨h.frames, by simp⟩
    · cases hstep
  · rcases hor hstep with hstep | hstep
    · exact fits_endContainer? h.frames hstep
    · exact fits_next? h.frames hstep
  · cases hstep

/-- all tokens -/
theorem Reading.Fits.run {r s : Reading} {ts : List Token} (h : r.Fits) (hrun : r.run? ts = some s) : s.Fits := by
  induction ts generalizing r with
  | nil =>
    cases hrun
    exact h
  | cons t ts ih =>
    rw [Reading.run?] at hrun
    split at hrun
    · cases hrun
    · rename_i hstep
      exact ih (h.step hstep) hrun

/-- **What was read is no deeper than allowed.** -/
theorem depth_le_of_parse? {s : String} {j : Json} (h : parse? s = some j) : j.depth ≤ depthLimit := by
  obtain ⟨tokens, -, hread⟩ := Option.bind_eq_some_iff.1 h
  split at hread
  · rename_i frames value hrun
    cases hread
    have hstart : Reading.Fits ⟨[], .value⟩ := ⟨trivial, by simp⟩
    exact (hstart.run hrun).value _ rfl
  · cases hread

end Isolation.Json
