import PhpGraft.Text.Blank

/-!
# Text in bytes

Text is stored as UTF-8. Bytes that are no UTF-8 are read as units without a character: each is the
longest run of bytes that starts a character, or a single byte that starts none.
-/

namespace PhpGraft.Utf8

/-- The bytes of a text. -/
def encode (s : String) : List UInt8 := s.toList.flatMap String.utf8EncodeChar

/-- What the first byte of a character says: its own part of the value, the number of bytes that
follow, and the least and the greatest value of the first of them. -/
structure Lead where
  /-- The part of the value that is in the first byte. -/
  value : Nat
  /-- The number of bytes that follow. -/
  more : Nat
  /-- The least value of the next byte. -/
  low : Nat := 0x80
  /-- The greatest value of the next byte. -/
  high : Nat := 0xBF

/-- Reads the first byte of a character, unless no character starts with it. -/
def lead? (b : Nat) : Option Lead :=
  if b < 0x80 then some ⟨b, 0, 0x80, 0xBF⟩
  else if b < 0xC2 then none
  else if b < 0xE0 then some ⟨b % 32, 1, 0x80, 0xBF⟩
  else if b = 0xE0 then some ⟨0, 2, 0xA0, 0xBF⟩
  else if b = 0xED then some ⟨13, 2, 0x80, 0x9F⟩
  else if b < 0xF0 then some ⟨b % 16, 2, 0x80, 0xBF⟩
  else if b = 0xF0 then some ⟨0, 3, 0x90, 0xBF⟩
  else if b < 0xF4 then some ⟨b % 8, 3, 0x80, 0xBF⟩
  else if b = 0xF4 then some ⟨4, 3, 0x80, 0x8F⟩
  else none

/-- Reads the bytes that follow the first byte of a character, and gives the bytes that are left. -/
def follow (low high : Nat) : Nat → Nat → List UInt8 → Option Nat × List UInt8
  | 0, value, bs => (some value, bs)
  | _ + 1, _, [] => (none, [])
  | more + 1, value, b :: bs =>
    if low ≤ b.toNat ∧ b.toNat ≤ high then follow 0x80 0xBF more (value * 64 + b.toNat % 64) bs
    else (none, b :: bs)

/-- The bytes that are left are not more than those that were given. -/
theorem length_follow_le (low high more value : Nat) (bs : List UInt8) :
    (follow low high more value bs).2.length ≤ bs.length := by
  induction bs generalizing low high more value with
  | nil => cases more <;> simp [follow]
  | cons b bs ih =>
    cases more with
    | zero => simp [follow]
    | succ more =>
      unfold follow
      split
      · exact Nat.le_succ_of_le (ih _ _ _ _)
      · exact Nat.le_refl _

/-- The characters that bytes stand for; a unit that is no character gives none. -/
def units : List UInt8 → List (Option Char)
  | [] => []
  | b :: bs =>
    match lead? b.toNat with
    | none => none :: units bs
    | some l =>
      let r := follow l.low l.high l.more l.value bs
      r.1.map Char.ofNat :: units r.2
termination_by bs => bs.length
decreasing_by
  · simp
  · exact Nat.lt_succ_of_le (length_follow_le _ _ _ _ _)

/-- The text that bytes stand for, if all of them belong to characters. -/
def decode? (bs : List UInt8) : Option String := ((units bs).mapM id).map String.ofList

/-- The text that bytes stand for, with a replacement character for each unit that is none. -/
def decodeLossy (bs : List UInt8) : String :=
  String.ofList ((units bs).map fun c => c.getD '\ufffd')

end PhpGraft.Utf8
