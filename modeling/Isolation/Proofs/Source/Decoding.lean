/-
The content of a literal, cut into the spellings of its characters.

- `Escape`, `Reads`: the escapes of a style and what they stand for; the longest escape is read where one starts, and one
  character where none does.
- `reads_piece`: the decoder reads this way, escape by escape (`escape?_sound`, `escape?_complete`).
- `escape?_bytewise`: an escape is as long in bytes when its bytes are looked at one by one, although the text in braces
  may be any text.
- `scanFrom_boundary`: so a loop over byte offsets, which can only read on where a character starts, is never stopped by
  that and finds what the decoder finds.
- `decode_tiles`: the offsets, and the spellings between them, of any content.
-/
import Isolation.Proofs.Source.QuotedValue

namespace Isolation.Literal

open Utf8 (latin toNat_latin encodeChar_ascii encodeChar_high)

variable {style : QuoteStyle} {cs : List Char} {c value : Char}

/-! ## Escapes -/

/-- the escapes of a style and the characters they stand for -/
inductive Escape : QuoteStyle → List Char → Char → Prop where
  | backslash (style : QuoteStyle) : Escape style ['\\', '\\'] '\\'
  | quote (style : QuoteStyle) : Escape style ['\\', style.quote] style.quote
  | dollar : Escape .double ['\\', '$'] '$'
  | control {c : Char} (hc : c ∈ ['n', 't', 'r', 'v', 'e', 'f']) : Escape .double ['\\', c] escapedChar
  | octal {digits : List Char} (hne : digits ≠ []) (hlength : digits.length ≤ 3)
      (hdigits : ∀ d ∈ digits, isOctal d = true) : Escape .double ('\\' :: digits) escapedChar
  | hex {digits : List Char} (hne : digits ≠ []) (hlength : digits.length ≤ 2)
      (hdigits : ∀ d ∈ digits, Ascii.isHexDigit d = true) : Escape .double ('\\' :: 'x' :: digits) escapedChar
  | unicode {text : List Char} (htext : '}' ∉ text) :
      Escape .double ('\\' :: 'u' :: '{' :: (text ++ ['}'])) escapedChar

/-- how the front of a text is read: the longest escape there, or one character if there is no escape -/
inductive Reads (style : QuoteStyle) (text : List Char) : List Char → Char → Prop where
  | escape {raw : List Char} {value : Char} (hraw : raw <+: text) (hescape : Escape style raw value)
      (hlongest : ∀ other v, other <+: text → Escape style other v → other.length ≤ raw.length) :
      Reads style text raw value
  | plain {c : Char} (hc : [c] <+: text) (hnone : ∀ raw v, raw <+: text → ¬ Escape style raw v) :
      Reads style text [c] c

theorem isAscii_of_isOctal (h : isOctal c = true) : Ascii.isAscii c = true := by
  simp only [isOctal, Bool.and_eq_true, decide_eq_true_eq, Char.le_def, UInt32.le_iff_toNat_le] at h
  refine decide_eq_true (?_ : c.val.toNat < 128)
  have hle : c.val.toNat ≤ 55 := h.2
  omega

theorem isAscii_of_isHexDigit (h : Ascii.isHexDigit c = true) : Ascii.isAscii c = true := by
  simp only [Ascii.isHexDigit, Ascii.isDigit, Bool.or_eq_true, Bool.and_eq_true, decide_eq_true_eq, Char.le_def,
    UInt32.le_iff_toNat_le] at h
  refine decide_eq_true (?_ : c.val.toNat < 128)
  rcases h with (⟨-, h⟩ | ⟨-, h⟩) | ⟨-, h⟩
  · exact Nat.lt_of_le_of_lt h (by decide)
  · exact Nat.lt_of_le_of_lt h (by decide)
  · exact Nat.lt_of_le_of_lt h (by decide)

/-- an escape is a backslash and an ASCII character at least -/
theorem Escape.head {raw : List Char} (h : Escape style raw value) :
    ∃ d rest, raw = '\\' :: d :: rest ∧ Ascii.isAscii d = true := by
  cases h with
  | backslash => exact ⟨_, _, rfl, by decide⟩
  | quote => cases style <;> exact ⟨_, _, rfl, by decide⟩
  | dollar => exact ⟨_, _, rfl, by decide⟩
  | control hc =>
    simp only [List.mem_cons, List.not_mem_nil, or_false] at hc
    rcases hc with rfl | rfl | rfl | rfl | rfl | rfl <;> exact ⟨_, _, rfl, by decide⟩
  | octal hne _ hdigits =>
    obtain ⟨d, ds, rfl⟩ := List.exists_cons_of_ne_nil hne
    exact ⟨d, ds, rfl, isAscii_of_isOctal (hdigits d List.mem_cons_self)⟩
  | hex => exact ⟨_, _, rfl, by decide⟩
  | unicode => exact ⟨_, _, rfl, by decide⟩

theorem take_length_takeWhile (p : Char → Bool) (k : Nat) (cs : List Char) :
    cs.take ((cs.take k).takeWhile p).length = (cs.take k).takeWhile p :=
  (List.prefix_iff_eq_take.1 ((List.takeWhile_prefix p).trans (List.take_prefix k cs))).symm

/-- digits at the front are counted in full -/
theorem length_le_takeWhile {p : Char → Bool} {digits : List Char} {k : Nat} (hlength : digits.length ≤ k)
    (hdigits : ∀ d ∈ digits, p d = true) (rest : List Char) :
    digits.length ≤ (((digits ++ rest).take k).takeWhile p).length := by
  rw [List.take_append, List.take_of_length_le hlength, List.takeWhile_append_of_pos hdigits, List.length_append]
  exact Nat.le_add_right _ _

/-- up to a closing character and with it -/
theorem take_closed {close : Char} (h : close ∈ cs) :
    cs.take ((cs.takeWhile (· ≠ close)).length + 1) = cs.takeWhile (· ≠ close) ++ [close] := by
  induction cs with
  | nil => cases h
  | cons c cs ih =>
    by_cases hc : c = close
    · simp [hc]
    · have hmem : close ∈ cs := by simpa [Ne.symm hc] using h
      simpa [hc] using ih hmem

theorem doubleEscape?_octal (hc : isOctal c = true) (cs : List Char) :
    doubleEscape? (c :: cs) = some (escapedChar, (((c :: cs).take 3).takeWhile isOctal).length) := by
  have hother : ∀ d, isOctal d = false → c ≠ d := by
    rintro d hd rfl
    rw [hc] at hd
    cases hd
  have hself : ¬(c = '\\' ∨ c = '"' ∨ c = '$') := by
    rintro (h | h | h) <;> exact hother _ (by decide) h
  have hletter : ¬(c = 'n' ∨ c = 't' ∨ c = 'r' ∨ c = 'v' ∨ c = 'e' ∨ c = 'f') := by
    rintro (h | h | h | h | h | h) <;> exact hother _ (by decide) h
  rw [doubleEscape?, if_neg (by simpa [or_assoc] using hself), if_neg (by simpa [or_assoc] using hletter), if_pos hc]

theorem doubleEscape?_hex (hne : (cs.take 2).takeWhile Ascii.isHexDigit ≠ []) :
    doubleEscape? ('x' :: cs) = some (escapedChar, 1 + ((cs.take 2).takeWhile Ascii.isHexDigit).length) := by
  rw [doubleEscape?, if_neg (by decide), if_neg (by decide), if_neg (by decide), if_pos rfl]
  split
  · contradiction
  · rfl

theorem doubleEscape?_unicode (hopen : cs.head? = some '{') (hclose : '}' ∈ cs) :
    doubleEscape? ('u' :: cs) = some (escapedChar, 2 + (cs.takeWhile (· ≠ '}')).length) := by
  rw [doubleEscape?, if_neg (by decide), if_neg (by decide), if_neg (by decide), if_neg (by decide),
    if_pos (by simp [hopen, hclose])]

theorem doubleEscape?_sound {n : Nat} (h : doubleEscape? cs = some (value, n)) :
    Escape .double ('\\' :: cs.take n) value := by
  cases cs with
  | nil => simp [doubleEscape?] at h
  | cons c cs =>
    rw [doubleEscape?] at h
    split at h
    · rename_i hself
      simp only [Option.some.injEq, Prod.mk.injEq] at h
      obtain ⟨rfl, rfl⟩ := h
      simp only [Bool.or_eq_true, decide_eq_true_eq] at hself
      rcases hself with (rfl | rfl) | rfl
      · exact .backslash _
      · exact .quote .double
      · exact .dollar
    · split at h
      · rename_i hletter
        cases h
        exact .control (by simpa [or_assoc] using hletter)
      · split at h
        · rename_i hoctal
          cases h
          rw [take_length_takeWhile]
          refine .octal (by simp [hoctal]) ?_ fun d hd => List.mem_takeWhile_imp hd
          exact ((List.takeWhile_prefix _).length_le).trans (List.length_take_le _ _)
        · split at h
          · rename_i hx
            subst hx
            split at h
            · cases h
            · rename_i hne
              cases h
              rw [Nat.add_comm, List.take_succ_cons, take_length_takeWhile]
              refine .hex hne ?_ fun d hd => List.mem_takeWhile_imp hd
              exact ((List.takeWhile_prefix _).length_le).trans (List.length_take_le _ _)
          · split at h
            · rename_i hbrace
              cases h
              simp only [Bool.and_eq_true, decide_eq_true_eq, List.contains_iff_mem] at hbrace
              obtain ⟨⟨rfl, hopen⟩, hclose⟩ := hbrace
              obtain ⟨rest, rfl⟩ := List.head?_eq_some_iff.1 hopen
              rw [show 2 + _ = _ + 1 + 1 from Nat.add_comm _ _, List.take_succ_cons, take_closed hclose]
              exact .unicode fun hmem => by simpa using List.mem_takeWhile_imp hmem
            · cases h

/-- what the decoder takes for an escape is one -/
theorem escape?_sound {n : Nat} (h : escape? style cs = some (value, n)) :
    Escape style ('\\' :: cs.take n) value := by
  cases style with
  | single =>
    cases cs with
    | nil => simp [escape?] at h
    | cons c cs =>
      rw [escape?] at h
      split at h
      · rename_i hself
        simp only [Option.some.injEq, Prod.mk.injEq] at h
        obtain ⟨rfl, rfl⟩ := h
        simp only [Bool.or_eq_true, decide_eq_true_eq] at hself
        rcases hself with rfl | rfl
        · exact .backslash _
        · exact .quote .single
      · cases h
  | double => exact doubleEscape?_sound h

/-- the decoder finds an escape where one starts, and none that is longer is there -/
theorem escape?_complete {raw : List Char} (h : Escape style raw value) (hraw : raw <+: '\\' :: cs) :
    ∃ v n, escape? style cs = some (v, n) ∧ raw.length ≤ n + 1 := by
  obtain ⟨rest, hrest⟩ := hraw
  cases h with
  | backslash =>
    cases hrest
    cases style <;> exact ⟨_, 1, rfl, Nat.le_refl _⟩
  | quote =>
    cases hrest
    cases style <;> exact ⟨_, 1, rfl, Nat.le_refl _⟩
  | dollar =>
    cases hrest
    exact ⟨_, 1, rfl, Nat.le_refl _⟩
  | control hc =>
    cases hrest
    simp only [List.mem_cons, List.not_mem_nil, or_false] at hc
    rcases hc with rfl | rfl | rfl | rfl | rfl | rfl <;> exact ⟨_, 1, rfl, Nat.le_refl _⟩
  | @octal digits hne hlength hdigits =>
    obtain rfl : digits ++ rest = cs := (List.cons.inj hrest).2
    obtain ⟨d, ds, rfl⟩ := List.exists_cons_of_ne_nil hne
    refine ⟨_, _, doubleEscape?_octal (hdigits d List.mem_cons_self) (ds ++ rest), ?_⟩
    exact Nat.succ_le_succ (length_le_takeWhile hlength hdigits rest)
  | @hex digits hne hlength hdigits =>
    obtain rfl : 'x' :: (digits ++ rest) = cs := (List.cons.inj hrest).2
    have hcount := length_le_takeWhile hlength hdigits rest
    have hpos := List.length_pos_of_ne_nil hne
    refine ⟨_, _, doubleEscape?_hex (List.ne_nil_of_length_pos (by omega)), ?_⟩
    simp only [List.length_cons]
    omega
  | @unicode text htext =>
    obtain rfl : 'u' :: ('{' :: text ++ '}' :: rest) = cs := by simpa using hrest
    have hopen : ∀ d ∈ '{' :: text, (d ≠ '}' : Bool) = true := by
      intro d hd
      rcases List.mem_cons.1 hd with rfl | hd
      · decide
      · exact decide_eq_true fun heq => htext (heq ▸ hd)
    refine ⟨_, _, doubleEscape?_unicode rfl (by simp), ?_⟩
    rw [List.takeWhile_append_of_pos hopen]
    simp only [List.length_cons, List.length_append, List.length_nil]
    omega

/-! ## Pieces -/

theorem reads_escape {n : Nat} (h : escape? style cs = some (value, n)) :
    Reads style ('\\' :: cs) ('\\' :: cs.take n) value := by
  refine .escape (List.cons_prefix_cons.2 ⟨rfl, List.take_prefix n cs⟩) (escape?_sound h) fun other v hother hescape => ?_
  obtain ⟨w, m, hm, hlength⟩ := escape?_complete hescape hother
  have hle := hother.length_le
  obtain ⟨rfl, rfl⟩ : w = value ∧ m = n := by simpa [h] using hm.symm
  simp only [List.length_cons, List.length_take] at hle ⊢
  omega

theorem reads_plain (h : c = '\\' → escape? style cs = none) : Reads style (c :: cs) [c] c := by
  refine .plain ⟨cs, rfl⟩ fun raw v hraw hescape => ?_
  obtain ⟨d, rest, rfl, -⟩ := hescape.head
  obtain rfl : '\\' = c := (List.cons_prefix_cons.1 hraw).1
  obtain ⟨w, n, hn, -⟩ := escape?_complete hescape hraw
  rw [h rfl] at hn
  cases hn

/-- a content read from its front to its end -/
inductive Reading (style : QuoteStyle) : List Char → List Piece → Prop where
  | done : Reading style [] []
  | step (raw : List Char) {rest : List Char} {value : Char} {ps : List Piece}
      (hread : Reads style (raw ++ rest) raw value) (hrest : Reading style rest ps) :
      Reading style (raw ++ rest) (⟨value, raw⟩ :: ps)

theorem reading_pieces (style : QuoteStyle) (content : List Char) :
    Reading style content (pieces style content) := by
  fun_induction pieces style content with
  | case1 => exact .done
  | case2 cs value n hescape ih =>
    have hcut : '\\' :: cs = ('\\' :: cs.take n) ++ cs.drop n := by rw [List.cons_append, List.take_append_drop]
    rw [hcut]
    exact .step _ (hcut ▸ reads_escape hescape) ih
  | case3 cs hnone ih => exact .step ['\\'] (reads_plain fun _ => hnone) ih
  | case4 c cs hc ih => exact .step [c] (reads_plain fun h => absurd h hc) ih

theorem Reads.ne_nil {text raw : List Char} (h : Reads style text raw value) : raw ≠ [] := by
  cases h with
  | escape _ hescape _ =>
    obtain ⟨d, rest, rfl, -⟩ := hescape.head
    exact List.cons_ne_nil _ _
  | plain => exact List.cons_ne_nil _ _

/-! ## Characters byte by byte -/

/-- the bytes of some characters -/
def bytesOf (cs : List Char) : List UInt8 := Utf8.encode (String.ofList cs)

theorem bytesOf_append (a b : List Char) : bytesOf (a ++ b) = bytesOf a ++ bytesOf b := by
  rw [bytesOf, String.ofList_append, Utf8.encode_append, bytesOf, bytesOf]

theorem bytesOf_singleton (c : Char) : bytesOf [c] = String.utf8EncodeChar c := by
  rw [bytesOf, Utf8.encode_ofList, List.flatMap_singleton]

theorem length_bytesOf (cs : List Char) : (bytesOf cs).length = byteLength cs := by
  rw [bytesOf, Utf8.length_encode, String.toList_ofList]

/-- characters seen byte by byte -/
def bytewise (cs : List Char) : List Char := (bytesOf cs).map latin

theorem bytewise_append (a b : List Char) : bytewise (a ++ b) = bytewise a ++ bytewise b := by
  rw [bytewise, bytesOf_append, List.map_append, bytewise, bytewise]

theorem bytewise_cons (c : Char) (cs : List Char) : bytewise (c :: cs) = bytewise [c] ++ bytewise cs :=
  bytewise_append [c] cs

theorem length_bytewise (cs : List Char) : (bytewise cs).length = byteLength cs := by
  rw [bytewise, List.length_map, length_bytesOf]

/-- an ASCII character is its own byte -/
theorem bytewise_ascii (hc : Ascii.isAscii c = true) : bytewise [c] = [c] := by
  obtain ⟨b, hbyte, hsame⟩ := encodeChar_ascii hc
  rw [bytewise, bytesOf_singleton, hbyte, List.map_singleton, hsame]

/-- no byte of another character is an ASCII character -/
theorem bytewise_high (hc : Ascii.isAscii c = false) : ∀ e ∈ bytewise [c], Ascii.isAscii e = false := by
  intro e he
  rw [bytewise, bytesOf_singleton] at he
  obtain ⟨b, hb, rfl⟩ := List.mem_map.1 he
  have hle := encodeChar_high hc b hb
  exact decide_eq_false (by rw [toNat_latin]; omega)

theorem exists_byte (c : Char) (cs : List Char) :
    ∃ d ds, bytewise (c :: cs) = d :: ds ∧ d ∈ bytewise [c] := by
  have hlength := length_bytewise [c]
  rw [bytewise_cons]
  cases hbytes : bytewise [c] with
  | nil =>
    rw [hbytes, byteLength_cons] at hlength
    exact absurd hlength (Nat.ne_of_lt (Nat.add_pos_left c.utf8Size_pos _))
  | cons d ds => exact ⟨d, ds ++ bytewise cs, rfl, List.mem_cons_self⟩

/-- an ASCII character is among the bytes of no other character -/
theorem mem_bytewise_singleton (hc : Ascii.isAscii c = true) {d : Char} : c ∈ bytewise [d] ↔ c = d := by
  cases hd : Ascii.isAscii d with
  | true => rw [bytewise_ascii hd, List.mem_singleton]
  | false =>
    refine iff_of_false (fun hmem => ?_) ?_
    · rw [bytewise_high hd c hmem] at hc
      cases hc
    · rintro rfl
      rw [hc] at hd
      cases hd

theorem mem_bytewise (hc : Ascii.isAscii c = true) : c ∈ bytewise cs ↔ c ∈ cs := by
  induction cs with
  | nil => rfl
  | cons d cs ih => rw [bytewise_cons, List.mem_append, mem_bytewise_singleton hc, ih, List.mem_cons]

theorem head?_bytewise (hc : Ascii.isAscii c = true) : (bytewise cs).head? = some c ↔ cs.head? = some c := by
  cases cs with
  | nil => rfl
  | cons d cs =>
    obtain ⟨e, es, hbytes, he⟩ := exists_byte d cs
    rw [hbytes, List.head?_cons, List.head?_cons, Option.some.injEq, Option.some.injEq]
    constructor
    · rintro rfl
      exact ((mem_bytewise_singleton hc).1 he).symm
    · rintro rfl
      rw [bytewise_ascii hc] at he
      exact List.mem_singleton.1 he

/-- what stands in front of an ASCII character -/
theorem takeWhile_ne_bytewise (hc : Ascii.isAscii c = true) (cs : List Char) :
    (bytewise cs).takeWhile (· ≠ c) = bytewise (cs.takeWhile (· ≠ c)) := by
  induction cs with
  | nil => rfl
  | cons d cs ih =>
    by_cases hd : d = c
    · subst hd
      rw [bytewise_cons, bytewise_ascii hc, List.singleton_append]
      simp [bytewise, bytesOf, Utf8.encode]
    · have hother : ∀ e ∈ bytewise [d], (e ≠ c : Bool) = true := by
        intro e he
        refine decide_eq_true ?_
        rintro rfl
        exact hd ((mem_bytewise_singleton hc).1 he).symm
      rw [bytewise_cons, List.takeWhile_append_of_pos hother, ih, ← bytewise_cons,
        List.takeWhile_cons_of_pos (by simpa using hd)]

/-- ASCII characters at the front, of which at most some are looked at -/
theorem takeWhile_bytewise (p : Char → Bool) (hp : ∀ {c}, p c = true → Ascii.isAscii c = true) (k : Nat)
    (cs : List Char) : ((bytewise cs).take k).takeWhile p = (cs.take k).takeWhile p := by
  induction cs generalizing k with
  | nil => rfl
  | cons c cs ih =>
    cases k with
    | zero => rfl
    | succ k =>
      cases hc : Ascii.isAscii c with
      | true =>
        rw [bytewise_cons, bytewise_ascii hc, List.singleton_append, List.take_succ_cons, List.take_succ_cons,
          List.takeWhile_cons, ih, List.takeWhile_cons]
      | false =>
        have hstop : ∀ e, Ascii.isAscii e = false → ¬ p e = true := by
          intro e he hpe
          rw [hp hpe] at he
          cases he
        obtain ⟨d, ds, hbytes, hd⟩ := exists_byte c cs
        rw [hbytes, List.take_succ_cons, List.take_succ_cons, List.takeWhile_cons_of_neg (hstop c hc),
          List.takeWhile_cons_of_neg (hstop d (bytewise_high hc d hd))]

/-! ## Escapes byte by byte -/

theorem byteLength_ascii (h : ∀ c ∈ cs, Ascii.isAscii c = true) : byteLength cs = cs.length := by
  induction cs with
  | nil => rfl
  | cons c cs ih =>
    obtain ⟨hc, hcs⟩ := List.forall_mem_cons.1 h
    rw [← length_bytewise, bytewise_cons, bytewise_ascii hc, List.length_append, length_bytewise, ih hcs]
    exact Nat.add_comm _ _

/-- an escape starts with an ASCII character -/
theorem escape?_high (hc : Ascii.isAscii c = false) (cs : List Char) : escape? style (c :: cs) = none := by
  cases h : escape? style (c :: cs) with
  | none => rfl
  | some e =>
    obtain ⟨value, n⟩ := e
    obtain ⟨d, rest, heq, hd⟩ := (escape?_sound h).head
    cases n with
    | zero => cases heq
    | succ n =>
      cases heq
      rw [hd] at hc
      cases hc

theorem byteLength_digits (p : Char → Bool) (hp : ∀ {c}, p c = true → Ascii.isAscii c = true) (k : Nat)
    (cs : List Char) : byteLength (cs.take ((cs.take k).takeWhile p).length) = ((cs.take k).takeWhile p).length := by
  rw [take_length_takeWhile]
  exact byteLength_ascii fun _ hc => hp (List.mem_takeWhile_imp hc)

theorem doubleEscape?_bytewise (hc : Ascii.isAscii c = true) (cs : List Char) :
    doubleEscape? (c :: bytewise cs) =
      (doubleEscape? (c :: cs)).map fun e => (e.1, byteLength ((c :: cs).take e.2)) := by
  have hone : byteLength [c] = 1 := byteLength_ascii (by simpa using hc)
  have hcons : ∀ ds, byteLength (c :: ds) = 1 + byteLength ds := fun ds => by
    rw [← hone, ← byteLength_append, List.singleton_append]
  have hoctals := takeWhile_bytewise isOctal isAscii_of_isOctal 3 (c :: cs)
  rw [bytewise_cons, bytewise_ascii hc, List.singleton_append] at hoctals
  have hcontains : (bytewise cs).contains '}' = cs.contains '}' := by
    rw [Bool.eq_iff_iff, List.contains_iff_mem, List.contains_iff_mem, mem_bytewise (by decide)]
  rw [doubleEscape?, doubleEscape?, hoctals, takeWhile_bytewise Ascii.isHexDigit isAscii_of_isHexDigit, hcontains]
  simp only [head?_bytewise (show Ascii.isAscii '{' = true by decide)]
  -- the branches of the two sides are the same by now
  split
  · simp [hone]
  · split
    · simp [hone]
    · split
      · rw [Option.map_some, byteLength_digits isOctal isAscii_of_isOctal]
      · split
        · split
          · rfl
          · rw [Option.map_some, Nat.add_comm, List.take_succ_cons, hcons,
              byteLength_digits Ascii.isHexDigit isAscii_of_isHexDigit, Nat.add_comm]
        · split
          · -- the only escape that can hold characters of several bytes
            rename_i hbrace
            simp only [Bool.and_eq_true, decide_eq_true_eq, List.contains_iff_mem] at hbrace
            have hclose : byteLength ['}'] = 1 := rfl
            rw [Option.map_some, show 2 + _ = _ + 1 + 1 from Nat.add_comm 2 (cs.takeWhile _).length,
              List.take_succ_cons, hcons, take_closed hbrace.2, byteLength_append, hclose,
              takeWhile_ne_bytewise (by decide), length_bytewise]
            simp only [Option.some.injEq, Prod.mk.injEq, true_and]
            omega
          · rfl

/-- **An escape is as long in bytes** whether its characters are read or its bytes one by one. -/
theorem escape?_bytewise (style : QuoteStyle) (cs : List Char) :
    escape? style (bytewise cs) = (escape? style cs).map fun e => (e.1, byteLength (cs.take e.2)) := by
  cases cs with
  | nil => cases style <;> rfl
  | cons c cs =>
    cases hc : Ascii.isAscii c with
    | false =>
      obtain ⟨d, ds, hbytes, hd⟩ := exists_byte c cs
      rw [hbytes, escape?_high hc, escape?_high (bytewise_high hc d hd), Option.map_none]
    | true =>
      rw [bytewise_cons, bytewise_ascii hc, List.singleton_append]
      cases style with
      | single =>
        have hone : byteLength [c] = 1 := byteLength_ascii (by simpa using hc)
        rw [escape?, escape?]
        split
        · simp [hone]
        · rfl
      | double => exact doubleEscape?_bytewise hc cs

/-! ## A loop over byte offsets -/

/-- what a first character stands for with the bytes behind its first byte, and how many bytes are read for it -/
def firstRead (style : QuoteStyle) (c : Char) (behind : List UInt8) : Char × Nat :=
  if c = '\\' then
    match escape? style (behind.map latin) with
    | some (value, n) => (value, 1 + n)
    | none => (c, 1)
  else (c, c.utf8Size)

theorem firstRead_pos (style : QuoteStyle) (c : Char) (behind : List UInt8) : 0 < (firstRead style c behind).2 := by
  unfold firstRead
  split
  · split
    · exact Nat.add_pos_left Nat.one_pos _
    · exact Nat.one_pos
  · exact c.utf8Size_pos

/-- the content decoded from a byte offset on; `none` if it is ever read on where no character starts -/
def scanFrom (style : QuoteStyle) (bytes : List UInt8) (base i : Nat) : Option (List (Char × Nat)) :=
  if _h : i < bytes.length then
    match Utf8.decode? (bytes.drop i) with
    | none => none
    | some text =>
      match text.toList with
      | [] => some []
      | c :: _ =>
        let read := firstRead style c (bytes.drop (i + 1))
        have _hpos : 0 < read.2 := firstRead_pos style c (bytes.drop (i + 1))
        (scanFrom style bytes base (i + read.2)).map ((read.1, base + i) :: ·)
  else some []
termination_by bytes.length - i
decreasing_by exact Nat.sub_lt_sub_left _h (Nat.lt_add_of_pos_right _hpos)

theorem firstRead_escape {n : Nat} (h : escape? style cs = some (value, n)) :
    firstRead style '\\' (bytesOf cs) = (value, byteLength ('\\' :: cs.take n)) := by
  rw [firstRead, if_pos rfl, ← bytewise, escape?_bytewise, h]
  rfl

theorem firstRead_plain (h : c = '\\' → escape? style cs = none) :
    firstRead style c (bytesOf cs) = (c, byteLength [c]) := by
  unfold firstRead
  split
  · rename_i hc
    rw [← bytewise, escape?_bytewise, h hc, hc]
    rfl
  · rfl

theorem drop_bytesOf (front rest : List Char) : (bytesOf (front ++ rest)).drop (byteLength front) = bytesOf rest := by
  rw [bytesOf_append, List.drop_left' (length_bytesOf front)]

theorem decode?_bytesOf (cs : List Char) : Utf8.decode? (bytesOf cs) = some (String.ofList cs) :=
  Utf8.decode?_encode _

/-- one round of the loop where a character starts -/
theorem scanFrom_step (style : QuoteStyle) (base : Nat) (front : List Char) (c : Char) (cs : List Char) :
    scanFrom style (bytesOf (front ++ c :: cs)) base (byteLength front) =
      (scanFrom style (bytesOf (front ++ c :: cs)) base (byteLength front + (firstRead style c (bytesOf cs)).2)).map
        (((firstRead style c (bytesOf cs)).1, base + byteLength front) :: ·) := by
  have hinside : byteLength front < (bytesOf (front ++ c :: cs)).length := by
    rw [length_bytesOf, byteLength_append, byteLength_cons]
    have := c.utf8Size_pos
    omega
  have hbehind : firstRead style c ((bytesOf (front ++ c :: cs)).drop (byteLength front + 1)) =
      firstRead style c (bytesOf cs) := by
    by_cases hc : c = '\\'
    · subst hc
      have hcut := drop_bytesOf (front ++ ['\\']) cs
      rw [byteLength_append, List.append_assoc] at hcut
      exact congrArg _ hcut
    · rw [firstRead, if_neg hc, firstRead, if_neg hc]
  rw [scanFrom, dif_pos hinside, drop_bytesOf, decode?_bytesOf]
  simp only [String.toList_ofList, hbehind]

/-- the loop reads a piece, and goes on with a front that is longer by its spelling -/
theorem scanFrom_piece {base : Nat} {front behind : List Char} (raw : List Char) (hcut : c :: cs = raw ++ behind)
    (hread : firstRead style c (bytesOf cs) = (value, byteLength raw))
    (hbehind : scanFrom style (bytesOf ((front ++ raw) ++ behind)) base (byteLength (front ++ raw)) =
      some (decode style (base + byteLength (front ++ raw)) behind)) :
    scanFrom style (bytesOf (front ++ c :: cs)) base (byteLength front) =
      some (withOffsets (base + byteLength front) (⟨value, raw⟩ :: pieces style behind)) := by
  rw [scanFrom_step, hread, hcut, ← List.append_assoc, ← byteLength_append, hbehind, byteLength_append,
    ← Nat.add_assoc]
  rfl

/-- **The loop is never off the boundaries of characters**: where it starts at one, it finds what the decoder finds. -/
theorem scanFrom_boundary (style : QuoteStyle) (base : Nat) (front rest : List Char) :
    scanFrom style (bytesOf (front ++ rest)) base (byteLength front) =
      some (decode style (base + byteLength front) rest) := by
  induction rest using pieces.induct style generalizing front with
  | case1 =>
    rw [List.append_nil, scanFrom, dif_neg (by rw [length_bytesOf]; exact Nat.lt_irrefl _), decode, pieces]
    rfl
  | case2 cs value n hescape ih =>
    rw [decode, pieces, if_pos rfl, hescape]
    refine scanFrom_piece ('\\' :: cs.take n) ?_ (firstRead_escape hescape) (ih _)
    rw [List.cons_append, List.take_append_drop]
  | case3 cs hnone ih =>
    rw [decode, pieces_lone hnone]
    exact scanFrom_piece ['\\'] rfl (firstRead_plain fun _ => hnone) (ih _)
  | case4 c cs hc ih =>
    rw [decode, pieces_cons hc]
    exact scanFrom_piece [c] rfl (firstRead_plain fun h => absurd h hc) (ih _)

/-! ## Offsets and what is between them -/

/-- the bytes between neighbouring offsets, the last ones up to `stop` -/
def slices (bytes : List UInt8) (base stop : Nat) : List Nat → List (List UInt8)
  | [] => []
  | start :: rest => (bytes.drop (start - base)).take (rest.headD stop - start) :: slices bytes base stop rest

/-- the spelling of a character of a content: the bytes at its offset, which are read as the character -/
def Spells (style : QuoteStyle) (base : Nat) (content : List Char) (d : Char × Nat) (bytes : List UInt8) : Prop :=
  ∃ front raw rest, content = front ++ raw ++ rest ∧ d.2 = base + (bytesOf front).length ∧ bytes = bytesOf raw ∧
    Reads style (raw ++ rest) raw d.1

theorem headD_withOffsets (base : Nat) (ps : List Piece) :
    ((withOffsets base ps).map Prod.snd).headD (base + byteLength (ps.flatMap Piece.raw)) = base := by
  cases ps <;> rfl

/-- the bytes behind some characters, as many as other characters take -/
theorem take_drop_bytesOf (front raw rest : List Char) :
    ((bytesOf (front ++ (raw ++ rest))).drop (byteLength front)).take (byteLength raw) = bytesOf raw := by
  rw [drop_bytesOf, bytesOf_append, List.take_left' (length_bytesOf raw)]

theorem slices_withOffsets (base : Nat) (front : List Char) (ps : List Piece) :
    slices (bytesOf (front ++ ps.flatMap Piece.raw)) base
        (base + byteLength front + byteLength (ps.flatMap Piece.raw))
        ((withOffsets (base + byteLength front) ps).map Prod.snd) = ps.map fun p => bytesOf p.raw := by
  induction ps generalizing front with
  | nil => rfl
  | cons p ps ih =>
    have hrest := ih (front ++ p.raw)
    have hnext := headD_withOffsets (base + byteLength front + byteLength p.raw) ps
    rw [byteLength_append, List.append_assoc, ← Nat.add_assoc] at hrest
    rw [List.flatMap_cons, byteLength_append, ← Nat.add_assoc, withOffsets, List.map_cons, slices, hnext, hrest,
      Nat.add_sub_cancel_left, Nat.add_sub_cancel_left, take_drop_bytesOf, List.map_cons]

theorem Reading.offsets {content : List Char} {ps : List Piece} (h : Reading style content ps) (base : Nat) :
    ((withOffsets base ps).map Prod.snd).Pairwise (· < ·) ∧
      ∀ offset ∈ (withOffsets base ps).map Prod.snd, base ≤ offset ∧ offset < base + byteLength content := by
  induction h generalizing base with
  | done => simp [withOffsets]
  | @step raw rest value ps hread _ ih =>
    obtain ⟨hsorted, hinside⟩ := ih (base + byteLength raw)
    have hpos : 0 < byteLength raw := by
      obtain ⟨c, cs, rfl⟩ := List.exists_cons_of_ne_nil hread.ne_nil
      exact Nat.add_pos_left c.utf8Size_pos _
    rw [withOffsets, List.map_cons, List.pairwise_cons, List.forall_mem_cons, byteLength_append]
    refine ⟨⟨fun offset hoffset => ?_, hsorted⟩, ⟨Nat.le_refl _, by omega⟩, fun offset hoffset => ?_⟩
    · have hin := hinside offset hoffset
      omega
    · have hin := hinside offset hoffset
      omega

theorem Reading.spells {rest : List Char} {ps : List Piece} (h : Reading style rest ps) (base : Nat)
    (front : List Char) :
    List.Forall₂ (Spells style base (front ++ rest)) (withOffsets (base + byteLength front) ps)
      (ps.map fun p => bytesOf p.raw) := by
  induction h generalizing front with
  | done => exact .nil
  | @step raw rest value ps hread _ ih =>
    have hbehind := ih (front ++ raw)
    rw [byteLength_append, ← Nat.add_assoc, List.append_assoc] at hbehind
    refine .cons ⟨front, raw, rest, (List.append_assoc _ _ _).symm, ?_, rfl, hread⟩ hbehind
    rw [length_bytesOf]

theorem flatten_bytesOf (ps : List Piece) :
    (ps.map fun p => bytesOf p.raw).flatten = bytesOf (ps.flatMap Piece.raw) := by
  induction ps with
  | nil => rfl
  | cons p ps ih => rw [List.map_cons, List.flatten_cons, ih, List.flatMap_cons, bytesOf_append]

/-- **The decoder tiles a literal.** For any content, quotes and base offset: the loop over its bytes is never stopped
off the boundary of a character and finds what the decoder finds; the offsets start with the base, grow and stay inside
the content; the bytes between them are the content again, and each part is read as the character that is found there. -/
theorem decode_tiles (style : QuoteStyle) (base : Nat) (content : String) :
    let bytes := Utf8.encode content
    let decoded := decode style base content.toList
    let offsets := decoded.map Prod.snd
    let spellings := slices bytes base (base + bytes.length) offsets
    scanFrom style bytes base 0 = some decoded ∧
      (content ≠ "" → offsets.head? = some base) ∧
      offsets.Pairwise (· < ·) ∧ (∀ offset ∈ offsets, offset < base + bytes.length) ∧
      spellings.flatten = bytes ∧
      List.Forall₂ (Spells style base content.toList) decoded spellings := by
  intro bytes decoded offsets spellings
  have hbytes : bytes = bytesOf content.toList := by rw [bytesOf, String.ofList_toList]
  have htile := pieces_tile style content.toList
  have hreading := reading_pieces style content.toList
  have hspellings : spellings = (pieces style content.toList).map fun p => bytesOf p.raw := by
    have hslices := slices_withOffsets base [] (pieces style content.toList)
    rw [htile, List.nil_append, ← length_bytesOf content.toList, ← hbytes] at hslices
    exact hslices
  obtain ⟨hsorted, hinside⟩ := hreading.offsets base
  refine ⟨?_, ?_, hsorted, ?_, ?_, ?_⟩
  · rw [hbytes]
    exact scanFrom_boundary style base [] content.toList
  · intro hne
    have hpieces : pieces style content.toList ≠ [] := by
      intro hnil
      rw [hnil] at htile
      exact hne (by simpa using htile.symm)
    obtain ⟨p, ps, hps⟩ := List.exists_cons_of_ne_nil hpieces
    simp only [offsets, decoded, decode, hps, withOffsets, List.map_cons, List.head?_cons]
  · intro offset hoffset
    rw [hbytes, length_bytesOf]
    exact (hinside offset hoffset).2
  · rw [hspellings, flatten_bytesOf, htile, hbytes]
  · rw [hspellings]
    exact hreading.spells base []

/-- an octal escape, one with a character of two bytes in braces, that character, and braces that are not closed -/
theorem decode_tiles_sample :
    decode .double 7 "\\101\\u\x7bé\x7dé\\u\x7b\\$".toList =
        [(escapedChar, 7), (escapedChar, 11), ('é', 17), ('\\', 19), ('u', 20), ('{', 21), ('$', 22)] ∧
      ((decode .double 7 "\\101\\u\x7bé\x7dé\\u\x7b\\$".toList).map Prod.snd).head? = some 7 :=
  ⟨by decide +kernel, (decode_tiles .double 7 "\\101\\u\x7bé\x7dé\\u\x7b\\$").2.1 (by decide)⟩

end Isolation.Literal
