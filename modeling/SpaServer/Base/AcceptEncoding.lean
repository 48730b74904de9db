import Mathlib.Data.List.DropRight
import SpaServer.Base.Text

/-!
# `Accept-Encoding`

The header by the grammar of RFC 7231, section 5.3.4:

    Accept-Encoding = #( codings [ weight ] )
    codings         = content-coding / "identity" / "*"
    weight          = OWS ";" OWS "q=" qvalue
    qvalue          = ( "0" [ "." 0*3DIGIT ] ) / ( "1" [ "." 0*3("0") ] )

A name is a token and does not depend on case, an element of the list may be empty, and white
space may stand around it.  What is no element of the grammar lists nothing.  `acceptsGzipCoding`
is whether the header accepts gzip.
-/

namespace SpaServer.Base

def isOws (c : Char) : Bool := c = ' ' || c = '\t'

def trimOws (s : Str) : Str := (s.dropWhile isOws).rdropWhile isOws

def isTchar (c : Char) : Bool := c.isAlphanum || "!#$%&'*+-.^_|~".toList.contains c || c.toNat = 96

def thousandths (digits : Str) : Nat :=
  Nat.ofDigitChars 10 (digits ++ List.replicate (3 - digits.length) '0') 0

/-- `qvalue`, in thousandths. -/
def parseQvalue : Str → Option Nat
  | ['0'] => some 0
  | ['1'] => some 1000
  | '0' :: '.' :: digits =>
    if digits.length ≤ 3 ∧ digits.all Char.isDigit then some (thousandths digits) else none
  | '1' :: '.' :: digits =>
    if digits.length ≤ 3 ∧ digits.all (· = '0') then some 1000 else none
  | _ => none

def parseWeight : Str → Option Nat
  | [] => some 1000
  | ';' :: s =>
    match s.dropWhile isOws with
    | q :: '=' :: value => if q = 'q' ∨ q = 'Q' then parseQvalue value else none
    | _ => none
  | _ => none

def parseCoding (element : Str) : Option (Str × Nat) :=
  let name := element.takeWhile isTchar
  let weight := (element.dropWhile isTchar).dropWhile isOws
  if name = [] then none else (parseWeight weight).map fun q => (name.map Char.toLower, q)

def codings (header : Str) : List (Str × Nat) :=
  (header.splitOn ',').filterMap fun element => parseCoding (trimOws element)

def isGzipCoding (coding : Str × Nat) : Bool :=
  coding.1 = "gzip".toList || coding.1 = "x-gzip".toList

/-- gzip is listed with a weight above zero, or is not listed and `*` is. -/
def acceptsGzipCoding (header : Str) : Bool :=
  if (codings header).any isGzipCoding then
    (codings header).any fun coding => isGzipCoding coding && 0 < coding.2
  else (codings header).any fun coding => coding.1 = ['*'] && 0 < coding.2

example : acceptsGzipCoding "br;q=1.0, GZIP ; q=0.5, *;q=0".toList = true := by decide +kernel

example : acceptsGzipCoding "gzip;q=0.000, *".toList = false := by decide +kernel

example : acceptsGzipCoding "notgzip".toList = false := by decide +kernel

end SpaServer.Base
