import Mathlib.Data.Rat.Init
import Mathlib.Data.Nat.Bitwise
import Nvbmc.Library.Dict
import Nvbmc.Library.Numerals

/-!
# The validators of the firewall daemon

The values of a request are texts or numbers.  A validator raises an exception
on a value of a type it was not written for; `none` is that exception.
-/

namespace Nvbmc.Firewall

open Nvbmc.Library

inductive Value where
  | text (content : Text)
  | integer (value : ℤ)
  | float (value : ℚ)
  /-- A number too large for a float. -/
  | infinite
  deriving DecidableEq

namespace Value

/-- A text as it stands in the source. -/
def lit (literal : String) : Value :=
  .text literal.toList

/-- The truth value: a field that is missing, empty or zero is not given. -/
def given : Value → Bool
  | .text content => content ≠ []
  | .integer value => value ≠ 0
  | .float value => value ≠ 0
  | .infinite => true

def isText : Value → Bool
  | .text _ => true
  | _ => false

end Value

/-- The pattern `^(\d{1,3}\.){3}\d{1,3}$`; `$` also stands before a line break
at the end. -/
def matchesIpv4 (ip : Text) : Bool :=
  let body := if ip.getLast? = some '\n' then ip.dropLast else ip
  let parts := body.splitOn '.'
  parts.length = 4 &&
    parts.all fun part => 1 ≤ part.length && part.length ≤ 3 &&
      part.all fun char => (digit? char).isSome

def isValidIpv4 : Value → Option Bool
  | .text ip =>
      if matchesIpv4 ip then
        some ((ip.splitOn '.').all fun octet =>
          match int? octet with
          | some value => 0 ≤ value && value ≤ 255
          | none => false)
      else some false
  | _ => none

/-- `str.lower` and `str.upper`, for the comparison with a plain text. -/
def lower (text : Text) : Text :=
  text.map Char.toLower

def upper (text : Text) : Text :=
  text.map Char.toUpper

def protocols : List Text :=
  ["udp".toList, "tcp".toList, "icmp".toList, "http".toList, "https".toList,
    "ftp".toList]

def isValidProtocol : Value → Option Bool
  | .text protocol => some (lower protocol ∈ protocols)
  | _ => none

def isValidPort : Value → Option Bool
  | .text port =>
      match int? port with
      | some value => some (0 ≤ value && value ≤ 65535)
      | none => some false
  | .integer value => some (0 ≤ value && value ≤ 65535)
  | .float value =>
      let port := value.num.tdiv value.den
      some (0 ≤ port && port ≤ 65535)
  -- `OverflowError`
  | .infinite => none

def actions : List Text :=
  ["ACCEPT".toList, "DROP".toList]

def isValidAction : Value → Option Bool
  | .text action => some (upper action ∈ actions)
  | _ => none

structure Fields where
  dstIp : Value
  srcIp : Value
  proto : Value
  dstPort : Value
  srcPort : Value
  action : Value

def field (data : Dict Text Value) (name : String) : Value :=
  (data.get? name.toList).getD (.integer 0)

def Fields.ofData (data : Dict Text Value) : Fields where
  dstIp := field data "dst_ip"
  srcIp := field data "src_ip"
  proto := field data "proto"
  dstPort := field data "dst_port"
  srcPort := field data "src_port"
  action := field data "action"

/-- `if value and valid(value)`. -/
def givenAnd (valid : Value → Option Bool) (value : Value) : Option Bool :=
  if value.given then valid value else some false

def checkDataValidity (fields : Fields) : Option ℕ := do
  let dstIp ← givenAnd isValidIpv4 fields.dstIp
  let srcIp ← givenAnd isValidIpv4 fields.srcIp
  let proto ← givenAnd isValidProtocol fields.proto
  let dstPort ← givenAnd isValidPort fields.dstPort
  let srcPort ← givenAnd isValidPort fields.srcPort
  let action ← givenAnd isValidAction fields.action
  let matchFlag :=
    if dstIp || srcIp || proto || dstPort || srcPort then 1 else 0
  return if action then matchFlag + 1 else matchFlag

end Nvbmc.Firewall
