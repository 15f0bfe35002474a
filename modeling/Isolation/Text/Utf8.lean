/-
Text and its UTF-8 bytes. Source files are byte lists; names and messages are strings.

- `encode` and `decode?` are inverse to each other: `decode? bs = some s` exactly when `bs = encode s`.
- `decodeLossy` reads any bytes, putting U+FFFD for each maximal ill-formed part.
-/

namespace Isolation.Utf8

/-- the bytes of a text -/
def encode (s : String) : List UInt8 := s.toByteArray.data.toList

/-- the text with these bytes, if they are well formed -/
def decode? (bytes : List UInt8) : Option String := String.fromUTF8? ⟨bytes.toArray⟩

/-- a sequence that has begun: how many bytes are missing, the range of the next one, the bits read so far -/
structure Pending where
  missing : Nat
  low : UInt8
  high : UInt8
  bits : Nat

/-- what the first byte of a sequence begins; `none` for a byte that begins nothing -/
def begin? (b : UInt8) : Option Pending :=
  if b < 0x80 then some ⟨0, 0, 0, b.toNat⟩
  else if b < 0xc2 then none
  else if b < 0xe0 then some ⟨1, 0x80, 0xbf, b.toNat - 0xc0⟩
  else if b = 0xe0 then some ⟨2, 0xa0, 0xbf, 0⟩
  else if b = 0xed then some ⟨2, 0x80, 0x9f, b.toNat - 0xe0⟩
  else if b < 0xf0 then some ⟨2, 0x80, 0xbf, b.toNat - 0xe0⟩
  else if b = 0xf0 then some ⟨3, 0x90, 0xbf, 0⟩
  else if b < 0xf4 then some ⟨3, 0x80, 0xbf, b.toNat - 0xf0⟩
  else if b = 0xf4 then some ⟨3, 0x80, 0x8f, b.toNat - 0xf0⟩
  else none

/-- the character that stands for an ill-formed part -/
def replacement : Char := '�'

/-- one byte, with what was begun before it: the characters now complete, and what is begun after it -/
def lossyStep (state : Option Pending) (b : UInt8) : List Char × Option Pending :=
  let start : List Char × Option Pending :=
    match begin? b with
    | none => ([replacement], none)
    | some p => if p.missing = 0 then ([Char.ofNat p.bits], none) else ([], some p)
  match state with
  | none => start
  | some p =>
    if p.low ≤ b && b ≤ p.high then
      let bits := p.bits * 64 + (b.toNat - 0x80)
      if p.missing = 1 then ([Char.ofNat bits], none) else ([], some ⟨p.missing - 1, 0x80, 0xbf, bits⟩)
    else (replacement :: start.1, start.2)

def lossyChars (state : Option Pending) : List UInt8 → List Char
  | [] => if state.isSome then [replacement] else []
  | b :: rest =>
    let (done, next) := lossyStep state b
    done ++ lossyChars next rest

/-- any bytes as text; each maximal ill-formed part becomes U+FFFD -/
def decodeLossy (bytes : List UInt8) : String := String.ofList (lossyChars none bytes)

/-! ## The two directions undo each other -/

theorem encode_of_decode? {bytes : List UInt8} {s : String} (h : decode? bytes = some s) :
    encode s = bytes := by
  unfold decode? String.fromUTF8? at h
  split at h
  · cases h
    simp [encode, String.fromUTF8]
  · cases h

theorem decode?_encode (s : String) : decode? (encode s) = some s := by
  simp [decode?, encode, String.fromUTF8?, String.fromUTF8, s.isValidUTF8]

theorem encode_append (s t : String) : encode (s ++ t) = encode s ++ encode t := by
  simp [encode, String.toByteArray_append]

end Isolation.Utf8
