import SqlSelect.Text.Digits

/-!
# Universally unique identifiers

Sixteen octets, written in lower-case hexadecimal in five groups with hyphens between them. Reading
takes digits of either case, with the hyphens or without any; the form with hyphens may stand in
braces or behind `urn:uuid:`, whose letters may have either case too.
-/

namespace SqlSelect

/-- A universally unique identifier by its octets. -/
structure Uuid where
  octets : List UInt8
  size : octets.length = 16
deriving DecidableEq

namespace Uuid

/-- The two hexadecimal digits of an octet. -/
def hexPair (octet : UInt8) : List Char :=
  [Text.hexDigit (octet.toNat / 16), Text.hexDigit (octet.toNat % 16)]

/-- The hexadecimal digits of octets. -/
def hexChars (octets : List UInt8) : List Char :=
  octets.flatMap hexPair

/-- The octets of hexadecimal digits, two by two. -/
def readOctets? : List Char → Option (List UInt8)
  | [] => some []
  | [_] => none
  | a :: b :: rest => do
    let a ← Text.hexValue? a
    let b ← Text.hexValue? b
    let octets ← readOctets? rest
    some (UInt8.ofNat (16 * a + b) :: octets)

/-- The identifier of 32 hexadecimal digits. -/
def ofHex? (digits : List Char) : Option Uuid := do
  let octets ← readOctets? digits
  if h : octets.length = 16 then some ⟨octets, h⟩ else none

/-- Characters in groups of the given sizes, with hyphens between the groups. -/
def group : List Nat → List Char → List Char
  | [], _ => []
  | [n], text => text.take n
  | n :: sizes, text => text.take n ++ '-' :: group sizes (text.drop n)

/-- The characters of groups of exactly the given sizes. -/
def ungroup? : List Nat → List Char → Option (List Char)
  | [], text => if text = [] then some [] else none
  | [n], text => if text.length = n then some text else none
  | n :: sizes, text =>
    match text.drop n with
    | '-' :: rest => (ungroup? sizes rest).map (text.take n ++ ·)
    | _ => none

/-- The number of hexadecimal digits in each group. -/
def groupSizes : List Nat := [8, 4, 4, 4, 12]

/-- The identifier of a text in groups. -/
def ofGrouped? (text : List Char) : Option Uuid :=
  (ungroup? groupSizes text).bind ofHex?

/-- The name space that may stand in front of an identifier, in lower case. -/
def nameSpace : List Char := ['u', 'r', 'n', ':', 'u', 'u', 'i', 'd', ':']

/-- The identifier of a text in any of its forms. -/
def ofChars? : List Char → Option Uuid
  | '{' :: rest => if rest.getLast? = some '}' then ofGrouped? rest.dropLast else none
  | text =>
    if (text.take nameSpace.length).map Char.toLower = nameSpace then
      ofGrouped? (text.drop nameSpace.length)
    else (ofHex? text).or (ofGrouped? text)

/-- The identifier that a string writes. -/
def parse? (s : String) : Option Uuid :=
  ofChars? s.toList

/-- The written form. -/
def chars (u : Uuid) : List Char :=
  group groupSizes (hexChars u.octets)

theorem length_hexChars (octets : List UInt8) : (hexChars octets).length = 2 * octets.length := by
  induction octets with
  | nil => rfl
  | cons o rest ih =>
    simp only [hexChars, List.flatMap_cons, List.length_append, List.length_cons] at ih ⊢
    rw [ih]
    simp only [hexPair, List.length_cons, List.length_nil]
    omega

theorem readOctets?_hexChars (octets : List UInt8) :
    readOctets? (hexChars octets) = some octets := by
  induction octets with
  | nil => rfl
  | cons o rest ih =>
    have ho : o.toNat < 256 := o.toNat_lt
    have hhigh := Text.hexValue?_hexDigit (n := o.toNat / 16) (by omega)
    have hlow := Text.hexValue?_hexDigit (n := o.toNat % 16) (by omega)
    have hsum : 16 * (o.toNat / 16) + o.toNat % 16 = o.toNat := by omega
    simp only [hexChars, List.flatMap_cons, hexPair, List.cons_append, List.nil_append] at ih ⊢
    simp only [readOctets?, hhigh, hlow, ih, Option.bind_eq_bind, Option.bind_some, hsum,
      UInt8.ofNat_toNat]

example :
    (parse? "550E8400E29B41D4A716446655440000").map (fun u => String.ofList u.chars) =
      some "550e8400-e29b-41d4-a716-446655440000" := by decide +kernel

example :
    parse? "URN:Uuid:550e8400-E29B-41d4-a716-446655440000" =
      parse? "550e8400e29b41d4a716446655440000" := by decide +kernel

end Uuid

end SqlSelect
