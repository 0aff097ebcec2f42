/-
The block decoder as a function on lists.

`plainStep` decodes one sequence: what is unread, what is known of the window (the
dictionary and the bytes decoded so far) and how much room is left are all its state.
There is no memory, no copy that runs ahead and one loop instead of two. That the code
computes this function, whichever of its loops does the work, is in `DecompressSpec`.
-/
import Plz4.Lz4.Decompress

set_option autoImplicit false

namespace Plz4.Lz4

open Lz77

/-- A length field is continued by bytes up to the first that is not 255; `lim` bytes have
to be left after each. An error says how many bytes are unread. -/
def plainLength (lim : ℕ) : Bytes → ℕ → Except ℕ (ℕ × Bytes)
  | [], _ => .error 0
  | b :: rest, acc =>
      if rest.length < lim then .error rest.length
      else if b = 255 then plainLength lim rest (acc + 255)
      else .ok (acc + b.toNat, rest)

/-- The literal length of a token. -/
def plainLitLength (token : UInt8) (rest : Bytes) : Except ℕ (ℕ × Bytes) :=
  if token.toNat / 16 = runMask then
    if rest.length ≤ runMask then .error rest.length else plainLength runMask rest runMask
  else .ok (token.toNat / 16, rest)

/-- The match length of a token. -/
def plainMatchLength (token : UInt8) (rest : Bytes) : Except ℕ (ℕ × Bytes) :=
  if token.toNat % 16 = mlMask then
    (plainLength (lastLiterals - 1) rest mlMask).map (fun r => (r.1 + minMatch, r.2))
  else .ok (token.toNat % 16 + minMatch, rest)

/-- What is left of the input, the window, and the room behind it. -/
structure Plain where
  rest : Bytes
  win : Bytes
  room : ℕ
  deriving DecidableEq, Repr

/-- Where a sequence leads. -/
inductive PlainNext
  | next (s : Plain)
  | done (win : Bytes)
  | error (unread : ℕ)
  deriving DecidableEq, Repr

/-- A match is copied from the window. The first `ext` bytes of it are in an external
dictionary; `short` says that the sequence passed for one of the common short ones, whose
matches may go up to the very end. -/
def plainMatch (ext : ℕ) (token : UInt8) (short : Prop) [Decidable short] (s : Plain) : PlainNext :=
  let offset := LittleEndian.get (s.rest.take 2)
  match plainMatchLength token (s.rest.drop 2) with
  | .error unread => .error unread
  | .ok (length, rest) =>
      if short ∧ token.toNat % 16 ≠ mlMask ∧ 8 ≤ offset ∧ offset + ext ≤ s.win.length then
        .next ⟨rest, extend s.win offset length, s.room - length⟩
      else if s.win.length < offset ∨ s.room < length + lastLiterals then .error rest.length
      else .next ⟨rest, extend s.win offset length, s.room - length⟩

/-- One sequence: literals and a match, or the last literals. -/
def plainStep (ext : ℕ) (s : Plain) : PlainNext :=
  match s.rest with
  | [] => .error 0
  | token :: rest₁ =>
      match plainLitLength token rest₁ with
      | .error unread => .error unread
      | .ok (length, rest) =>
          let short := token.toNat / 16 ≠ runMask ∧ 17 ≤ rest₁.length ∧ 32 ≤ s.room
          if ¬ short ∧ (s.room < length + mfLimit ∨ rest.length < length + 8) then
            if rest.length = length ∧ length ≤ s.room then .done (s.win ++ rest)
            else .error rest.length
          else
            plainMatch ext token short
              ⟨rest.drop length, s.win ++ rest.take length, s.room - length⟩

/-- The decoder's loop. -/
def plainLoop (ext : ℕ) : ℕ → PlainNext → Except ℕ Bytes
  | _, .done win => .ok win
  | _, .error unread => .error unread
  | 0, .next s => .error s.rest.length
  | k + 1, .next s => plainLoop ext k (plainStep ext s)

/-- Decoding of a whole block into `cap` bytes behind a history, of which the first `ext`
bytes are in an external dictionary: the bytes, or the code the C function returns. -/
def plainDecode (ext : ℕ) (hist src : Bytes) (cap : ℕ) : Except ℤ Bytes :=
  if src = [] then .error (-1)
  else if cap = 0 then if src = [0] then .ok [] else .error (-1)
  else
    match plainLoop ext src.length (.next ⟨src, hist, cap⟩) with
    | .ok win => .ok (win.drop hist.length)
    | .error unread => .error (-(src.length - unread : ℤ) - 1)

end Plz4.Lz4
