import Mathlib.Data.List.Basic

/-!
# JSON texts

The grammar of RFC 8259 as a type: a `Value` is a value together with the way it is written, so that
`Value.render` is a function and a part of a value has a text of its own. Whitespace, string bodies and
numbers carry the proof that they are what the grammar allows, so every `Value` renders to a
well-formed text and every well-formed text is the rendering of one. Bytes above `0x7F` are not
interpreted.
-/

namespace JsonText

/-! ## Bytes -/

def isWs (b : UInt8) : Bool := b == 0x20 || b == 0x09 || b == 0x0A || b == 0x0D

def isDigit (b : UInt8) : Bool := 0x30 ≤ b && b ≤ 0x39

def isHexDigit (b : UInt8) : Bool :=
  isDigit b || (0x41 ≤ b && b ≤ 0x46) || (0x61 ≤ b && b ≤ 0x66)

def isSimpleEscape (b : UInt8) : Bool :=
  b == 0x22 || b == 0x5C || b == 0x2F || b == 0x62 || b == 0x66 || b == 0x6E || b == 0x72 || b == 0x74

structure Ws where
  bytes : List UInt8
  ws : ∀ b ∈ bytes, isWs b = true

structure Digits where
  bytes : List UInt8
  ne_nil : bytes ≠ []
  digits : ∀ b ∈ bytes, isDigit b = true

/-! ## Strings and numbers -/

/-- One character of a string, as it is written. -/
inductive StringItem
  | plain (b : UInt8) (ge : 0x20 ≤ b) (ne_quote : b ≠ 0x22) (ne_backslash : b ≠ 0x5C)
  | escape (b : UInt8) (simple : isSimpleEscape b = true)
  | unicode (a b c d : UInt8) (hex : ∀ x ∈ [a, b, c, d], isHexDigit x = true)

def StringItem.bytes : StringItem → List UInt8
  | plain b _ _ _ => [b]
  | escape b _ => [0x5C, b]
  | unicode a b c d _ => [0x5C, 0x75, a, b, c, d]

def StringItem.escaped : StringItem → Bool
  | plain .. => false
  | _ => true

abbrev StringBody := List StringItem

def StringBody.bytes (s : StringBody) : List UInt8 := s.flatMap StringItem.bytes

def StringBody.escaped (s : StringBody) : Bool := s.any StringItem.escaped

structure Exponent where
  upper : Bool
  sign : Option Bool
  digits : Digits

def Exponent.bytes (e : Exponent) : List UInt8 :=
  (if e.upper then 0x45 else 0x65) ::
    (e.sign.elim [] fun minus => [if minus then 0x2D else 0x2B]) ++ e.digits.bytes

structure Number where
  negative : Bool
  int : Digits
  leading : int.bytes = [0x30] ∨ int.bytes.head int.ne_nil ≠ 0x30
  frac : Option Digits
  exp : Option Exponent

def Number.bytes (n : Number) : List UInt8 :=
  (if n.negative then [0x2D] else []) ++ n.int.bytes ++
    (n.frac.elim [] fun d => 0x2E :: d.bytes) ++ n.exp.elim [] Exponent.bytes

def Number.isFloat (n : Number) : Bool := n.frac.isSome || n.exp.isSome

/-! ## Values -/

/-- An element of an array with the whitespace around it. -/
structure Padded (α : Type) where
  before : Ws
  value : α
  after : Ws

/-- A member of an object with the whitespace around its parts. -/
structure Member (α : Type) where
  before : Ws
  key : StringBody
  afterKey : Ws
  beforeValue : Ws
  value : α
  after : Ws

/-- A value, as it is written; the gap is the whitespace of an empty container. -/
inductive Value
  | null
  | bool (b : Bool)
  | number (n : Number)
  | string (s : StringBody)
  | array (gap : Ws) (elems : List (Padded Value))
  | object (gap : Ws) (members : List (Member Value))

namespace Value

mutual

def render : Value → List UInt8
  | null => [0x6E, 0x75, 0x6C, 0x6C]
  | bool true => [0x74, 0x72, 0x75, 0x65]
  | bool false => [0x66, 0x61, 0x6C, 0x73, 0x65]
  | number n => n.bytes
  | string s => 0x22 :: (s.bytes ++ [0x22])
  | array gap elems => 0x5B :: renderElems gap elems
  | object gap members => 0x7B :: renderMembers gap members

def renderElems (gap : Ws) : List (Padded Value) → List UInt8
  | [] => gap.bytes ++ [0x5D]
  | ⟨before, value, after⟩ :: rest =>
    before.bytes ++ (render value ++ (after.bytes ++ renderElemsTail rest))

def renderElemsTail : List (Padded Value) → List UInt8
  | [] => [0x5D]
  | ⟨before, value, after⟩ :: rest =>
    0x2C :: (before.bytes ++ (render value ++ (after.bytes ++ renderElemsTail rest)))

def renderMembers (gap : Ws) : List (Member Value) → List UInt8
  | [] => gap.bytes ++ [0x7D]
  | ⟨before, key, afterKey, beforeValue, value, after⟩ :: rest =>
    before.bytes ++ (0x22 :: (key.bytes ++ (0x22 :: (afterKey.bytes ++ (0x3A ::
      (beforeValue.bytes ++ (render value ++ (after.bytes ++ renderMembersTail rest))))))))

def renderMembersTail : List (Member Value) → List UInt8
  | [] => [0x7D]
  | ⟨before, key, afterKey, beforeValue, value, after⟩ :: rest =>
    0x2C :: (before.bytes ++ (0x22 :: (key.bytes ++ (0x22 :: (afterKey.bytes ++ (0x3A ::
      (beforeValue.bytes ++ (render value ++ (after.bytes ++ renderMembersTail rest)))))))))

end

theorem induct {P : Value → Prop} (null : P null) (bool : ∀ b, P (bool b)) (number : ∀ n, P (number n))
    (string : ∀ s, P (string s)) (array : ∀ gap elems, (∀ e ∈ elems, P e.value) → P (array gap elems))
    (object : ∀ gap members, (∀ m ∈ members, P m.value) → P (object gap members)) : ∀ v, P v
  | .null => null
  | .bool b => bool b
  | .number n => number n
  | .string s => string s
  | .array gap elems => array gap elems fun e _ =>
    induct null bool number string array object e.value
  | .object gap members => object gap members fun m _ =>
    induct null bool number string array object m.value
termination_by v => sizeOf v
decreasing_by
  · have hlt : sizeOf e < sizeOf elems := List.sizeOf_lt_of_mem ‹e ∈ elems›
    cases e
    simp only [Padded.mk.sizeOf_spec, Value.array.sizeOf_spec] at *
    omega
  · have hlt : sizeOf m < sizeOf members := List.sizeOf_lt_of_mem ‹m ∈ members›
    cases m
    simp only [Member.mk.sizeOf_spec, Value.object.sizeOf_spec] at *
    omega

end Value

end JsonText
