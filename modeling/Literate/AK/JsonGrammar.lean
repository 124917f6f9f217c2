import Literate.AK.StringUtils

/-!
# AK: the JSON grammar

The grammar of RFC 8259 over bytes, with the numbers and the four characters of a
`\u` escape as parameters: the RFC's own grammar is one instance, and what the
parser accepts is another.  Numbers have no exponent here.
-/

namespace Literate.AK.Json

open StringUtils

/-- The nonterminals; `chars` is what stands between the quotes of a string. -/
inductive Symbol where
  | chars
  | value
  | elements
  | members
  deriving DecidableEq, Repr

def isWhitespace (c : UInt8) : Prop := c = 0x20 ∨ c = 0x09 ∨ c = 0x0a ∨ c = 0x0d

instance (c : UInt8) : Decidable (isWhitespace c) := by
  unfold isWhitespace
  infer_instance

def Whitespace (w : List UInt8) : Prop := ∀ c ∈ w, isWhitespace c

/-- The characters that may follow a backslash alone. -/
def escapes : List UInt8 := ['"', '\\', '/', 'b', 'f', 'n', 'r', 't'].map byte

def quoted (t : List UInt8) : List UInt8 := byte '"' :: (t ++ [byte '"'])

/-- The productions. -/
inductive Derives (Number Unicode : List UInt8 → Prop) : Symbol → List UInt8 → Prop where
  | nil : Derives Number Unicode .chars []
  | plain {c : UInt8} {t : List UInt8} (hc : 0x20 ≤ c) (hquote : c ≠ byte '"')
      (hbackslash : c ≠ byte '\\') (ht : Derives Number Unicode .chars t) :
      Derives Number Unicode .chars (c :: t)
  | escape {c : UInt8} {t : List UInt8} (hc : c ∈ escapes)
      (ht : Derives Number Unicode .chars t) :
      Derives Number Unicode .chars (byte '\\' :: c :: t)
  | unicode {u t : List UInt8} (hu : Unicode u) (ht : Derives Number Unicode .chars t) :
      Derives Number Unicode .chars (byte '\\' :: byte 'u' :: (u ++ t))
  | null : Derives Number Unicode .value (['n', 'u', 'l', 'l'].map byte)
  | true : Derives Number Unicode .value (['t', 'r', 'u', 'e'].map byte)
  | false : Derives Number Unicode .value (['f', 'a', 'l', 's', 'e'].map byte)
  | number {t : List UInt8} (ht : Number t) : Derives Number Unicode .value t
  | string {t : List UInt8} (ht : Derives Number Unicode .chars t) :
      Derives Number Unicode .value (quoted t)
  | emptyArray {w : List UInt8} (hw : Whitespace w) :
      Derives Number Unicode .value (byte '[' :: (w ++ [byte ']']))
  | array {t : List UInt8} (ht : Derives Number Unicode .elements t) :
      Derives Number Unicode .value (byte '[' :: (t ++ [byte ']']))
  | emptyObject {w : List UInt8} (hw : Whitespace w) :
      Derives Number Unicode .value (byte '{' :: (w ++ [byte '}']))
  | object {t : List UInt8} (ht : Derives Number Unicode .members t) :
      Derives Number Unicode .value (byte '{' :: (t ++ [byte '}']))
  | element {w v w' : List UInt8} (hw : Whitespace w) (hv : Derives Number Unicode .value v)
      (hw' : Whitespace w') : Derives Number Unicode .elements (w ++ (v ++ w'))
  | nextElement {w v w' t : List UInt8} (hw : Whitespace w)
      (hv : Derives Number Unicode .value v) (hw' : Whitespace w')
      (ht : Derives Number Unicode .elements t) :
      Derives Number Unicode .elements (w ++ (v ++ (w' ++ byte ',' :: t)))
  | member {w k w₁ w₂ v w' : List UInt8} (hw : Whitespace w)
      (hk : Derives Number Unicode .chars k) (hw₁ : Whitespace w₁) (hw₂ : Whitespace w₂)
      (hv : Derives Number Unicode .value v) (hw' : Whitespace w') :
      Derives Number Unicode .members
        (w ++ (quoted k ++ (w₁ ++ byte ':' :: (w₂ ++ (v ++ w')))))
  | nextMember {w k w₁ w₂ v w' t : List UInt8} (hw : Whitespace w)
      (hk : Derives Number Unicode .chars k) (hw₁ : Whitespace w₁) (hw₂ : Whitespace w₂)
      (hv : Derives Number Unicode .value v) (hw' : Whitespace w')
      (ht : Derives Number Unicode .members t) :
      Derives Number Unicode .members
        (w ++ (quoted k ++ (w₁ ++ byte ':' :: (w₂ ++ (v ++ (w' ++ byte ',' :: t))))))

/-- A value with whitespace around it. -/
def Text (Number Unicode : List UInt8 → Prop) (s : List UInt8) : Prop :=
  ∃ w t w', Whitespace w ∧ Derives Number Unicode .value t ∧ Whitespace w' ∧
    s = w ++ (t ++ w')

/-! ## The tokens of the RFC -/

inductive RfcInt : List UInt8 → Prop where
  | zero : RfcInt [byte '0']
  | digits {d : UInt8} {ds : List UInt8} (hd : isDigit d) (hnonzero : d ≠ byte '0')
      (hds : ∀ c ∈ ds, isDigit c) : RfcInt (d :: ds)

inductive RfcFraction : List UInt8 → Prop where
  | none : RfcFraction []
  | some {ds : List UInt8} (hne : ds ≠ []) (hds : ∀ c ∈ ds, isDigit c) :
      RfcFraction (byte '.' :: ds)

/-- `[ minus ] int [ frac ]`. -/
inductive RfcNumber : List UInt8 → Prop where
  | positive {int frac : List UInt8} (hint : RfcInt int) (hfrac : RfcFraction frac) :
      RfcNumber (int ++ frac)
  | negative {int frac : List UInt8} (hint : RfcInt int) (hfrac : RfcFraction frac) :
      RfcNumber (byte '-' :: (int ++ frac))

/-- `4HEXDIG`. -/
def RfcUnicode (u : List UInt8) : Prop := u.length = 4 ∧ ∀ c ∈ u, (hexDigit c).isSome

/-- A JSON text of RFC 8259 whose numbers have no exponent. -/
def RfcText (s : List UInt8) : Prop := Text RfcNumber RfcUnicode s

/-! ## The tokens of the parser -/

/-- A first digit, and then digits and signs. -/
inductive ParserInt : List UInt8 → Prop where
  | zero : ParserInt [byte '0']
  | digits {d : UInt8} {ds : List UInt8} (hd : isDigit d) (hnonzero : d ≠ byte '0')
      (hds : ∀ c ∈ ds, isDigit c ∨ c = byte '-') : ParserInt (d :: ds)

/-- What the parser takes for the integer part of negative zero. -/
inductive ParserNegativeZero : List UInt8 → Prop where
  | minus : ParserNegativeZero [byte '-']
  | zero : ParserNegativeZero [byte '-', byte '0']
  | more {cs : List UInt8} (hcs : ∀ c ∈ cs, c = byte '-' ∨ c = byte '0') :
      ParserNegativeZero (byte '-' :: byte '-' :: cs)

/-- A fraction of negative zero, with or without zeros. -/
inductive ParserZeroFraction : List UInt8 → Prop where
  | none : ParserZeroFraction []
  | some {cs : List UInt8} (hcs : ∀ c ∈ cs, c = byte '0') : ParserZeroFraction (byte '.' :: cs)

/-- The numbers that the parser accepts: it reads the first digit of the integer part
and of the fraction, and calls everything without another digit than 0 that starts
with a sign negative zero. -/
inductive ParserNumber : List UInt8 → Prop where
  | positive {int frac : List UInt8} (hint : ParserInt int) (hfrac : RfcFraction frac) :
      ParserNumber (int ++ frac)
  | negativeZero {int frac : List UInt8} (hint : ParserNegativeZero int)
      (hfrac : ParserZeroFraction frac) : ParserNumber (int ++ frac)

/-- The escapes that the parser accepts: it reads the first of the four characters, and
the others are any but whitespace. -/
def ParserUnicode (u : List UInt8) : Prop :=
  ∃ a b c d, u = [a, b, c, d] ∧ (hexDigit a).isSome ∧ b ∉ whitespace ∧ c ∉ whitespace ∧
    d ∉ whitespace

/-- The texts that the parser accepts (`JsonParser.parse_isOk_iff`). -/
def ParserText (s : List UInt8) : Prop := Text ParserNumber ParserUnicode s

end Literate.AK.Json
