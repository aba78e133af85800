/-!
# Base64

Byte strings as text: the standard alphabet with padding, one text for each
byte string. Text is read as bytes, one byte a symbol.

* `Base64.encode` groups three bytes into four symbols and pads the last group;
* `Base64.decode` reads the groups back, and refuses whatever `encode` does not
  write; `Base64.Error` says at which byte and why.
-/

namespace TreeCodec.Base64

/-- What is wrong with a text. Offsets count bytes from its start. -/
inductive Error
  /-- A byte where no such byte may stand. -/
  | invalidSymbol (byte : UInt8) (offset : Nat)
  /-- The last group is too short to hold a byte; the text is readable up to `length`. -/
  | invalidLength (length : Nat)
  /-- The last group is not filled up to four symbols. -/
  | invalidPadding
  /-- The last symbol has bits set beyond the last whole byte. -/
  | invalidLastSymbol (byte : UInt8) (offset : Nat)
  deriving DecidableEq

def Error.message : Error → String
  | .invalidSymbol byte offset => s!"Invalid symbol {byte.toNat}, offset {offset}."
  | .invalidLength length => s!"Invalid input length: {length}"
  | .invalidPadding => "Invalid padding"
  | .invalidLastSymbol byte offset => s!"Invalid last symbol {byte.toNat}, offset {offset}."

/-! ## Symbols -/

/-- The byte `=`, which fills up the last group and is no symbol. -/
def pad : UInt8 := 61

/-- The byte that stands for six bits. -/
def symbol (v : Fin 64) : UInt8 :=
  if v < 26 then .ofNat (65 + v)
  else if v < 52 then .ofNat (71 + v)
  else if v < 62 then .ofNat (v - 4)
  else if v = 62 then 43
  else 47

/-- The six bits that a byte stands for, if it is a symbol. -/
def sextet? (b : UInt8) : Option (Fin 64) :=
  if 65 ≤ b ∧ b ≤ 90 then some (.ofNat 64 (b.toNat - 65))
  else if 97 ≤ b ∧ b ≤ 122 then some (.ofNat 64 (b.toNat - 71))
  else if 48 ≤ b ∧ b ≤ 57 then some (.ofNat 64 (b.toNat + 4))
  else if b = 43 then some 62
  else if b = 47 then some 63
  else none

/-! ## Writing -/

/-- The upper six bits, and the lower two in front of `next`'s upper four, and
so on: four sextets from three bytes. -/
def sextets (a b c : UInt8) : Fin 64 × Fin 64 × Fin 64 × Fin 64 :=
  (.ofNat 64 (a.toNat / 4),
    .ofNat 64 (a.toNat % 4 * 16 + b.toNat / 16),
    .ofNat 64 (b.toNat % 16 * 4 + c.toNat / 64),
    .ofNat 64 (c.toNat % 64))

/-- The text of a byte string. -/
def encode : List UInt8 → List UInt8
  | [] => []
  | [a] =>
    let (s, t, _, _) := sextets a 0 0
    [symbol s, symbol t, pad, pad]
  | [a, b] =>
    let (s, t, u, _) := sextets a b 0
    [symbol s, symbol t, symbol u, pad]
  | a :: b :: c :: rest =>
    let (s, t, u, v) := sextets a b c
    symbol s :: symbol t :: symbol u :: symbol v :: encode rest

/-! ## Reading -/

def byte₁ (s t : Fin 64) : UInt8 := .ofNat (s.val * 4 + t.val / 16)
def byte₂ (t u : Fin 64) : UInt8 := .ofNat (t.val % 16 * 16 + u.val / 4)
def byte₃ (u v : Fin 64) : UInt8 := .ofNat (u.val % 4 * 64 + v.val)

/-- The sextet of the byte at an offset. -/
def sextetAt (b : UInt8) (offset : Nat) : Except Error (Fin 64) :=
  match sextet? b with
  | some v => .ok v
  | none => .error (.invalidSymbol b offset)

/-- The symbols of the last group and the number of padding bytes behind them.
The group begins at `start`, and `seen` of its symbols are already read. A byte
behind padding makes the first padding byte invalid. -/
def readTail (start : Nat) : Nat → List UInt8 → Except Error (List (Fin 64) × Nat)
  | _, [] => .ok ([], 0)
  | seen, b :: rest =>
    if b = pad then
      if 2 ≤ seen ∧ rest.all (· == pad) then .ok ([], rest.length + 1)
      else .error (.invalidSymbol pad (start + seen))
    else do
      let v ← sextetAt b (start + seen)
      let (vs, padding) ← readTail start (seen + 1) rest
      return (v :: vs, padding)

/-- The bytes that the symbols of the last group stand for. Bits beyond the last
whole byte must be zero. -/
def tailBytes (start : Nat) : List (Fin 64) → Except Error (List UInt8)
  | [s, t] =>
    if t.val % 16 = 0 then .ok [byte₁ s t] else .error (.invalidLastSymbol (symbol t) (start + 1))
  | [s, t, u] =>
    if u.val % 4 = 0 then .ok [byte₁ s t, byte₂ t u]
    else .error (.invalidLastSymbol (symbol u) (start + 2))
  | [s, t, u, v] => .ok [byte₁ s t, byte₂ t u, byte₃ u v]
  | _ => .error .invalidPadding

/-- The bytes of the last group, which begins at `start`. -/
def decodeTail (start : Nat) (tail : List UInt8) : Except Error (List UInt8) := do
  let (vs, padding) ← readTail start 0 tail
  if vs.length < 2 then .error (.invalidLength (start + vs.length))
  else if (vs.length + padding) % 4 ≠ 0 then .error .invalidPadding
  else tailBytes start vs

/-- The bytes of the groups from `start` on. The last group is the one that
nothing follows, even if it is whole. -/
def decodeGroups (start : Nat) : List UInt8 → Except Error (List UInt8)
  | a :: b :: c :: d :: e :: rest => do
    let s ← sextetAt a start
    let t ← sextetAt b (start + 1)
    let u ← sextetAt c (start + 2)
    let v ← sextetAt d (start + 3)
    let bytes ← decodeGroups (start + 4) (e :: rest)
    return byte₁ s t :: byte₂ t u :: byte₃ u v :: bytes
  | tail => decodeTail start tail

/-- A single byte too many that is no symbol is refused before all else. -/
def checkLast (text : List UInt8) : Except Error Unit :=
  match text.getLast? with
  | some b =>
    if text.length % 4 = 1 ∧ b ≠ pad ∧ sextet? b = none then
      .error (.invalidSymbol b (text.length - 1))
    else .ok ()
  | none => .ok ()

/-- The byte string of a text. -/
def decode (text : List UInt8) : Except Error (List UInt8) :=
  match text with
  | [] => .ok []
  | text => do
    checkLast text
    decodeGroups 0 text

/-! ## Text -/

/-- The text of a byte string, as a string. -/
def encodeString (bytes : List UInt8) : String :=
  String.ofList ((encode bytes).map fun b => Char.ofNat b.toNat)

/-- The byte string that a string spells. Symbols and offsets are those of the
string's UTF-8 bytes. -/
def decodeString (s : String) : Except Error (List UInt8) :=
  decode s.toUTF8.data.toList

end TreeCodec.Base64
