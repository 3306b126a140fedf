import CssText.Location.Percent

/-!
# File URLs

The path that a `file:` URL names. The host may be empty or `localhost`, query and fragment
are no part of the path, and what is left is percent-decoded.
-/

namespace CssText
namespace FileUrl

def scheme : Bytes :=
  ascii "file:"

def hasScheme (location : Bytes) : Bool :=
  lowerCase (location.take scheme.length) = scheme

def isLocalHost (host : Bytes) : Bool :=
  host.isEmpty || lowerCase host = ascii "localhost"

/-- What follows the host, from the first slash on. Without a double slash there is no host. -/
def afterHost? (rest : Bytes) : Option Bytes :=
  if (ascii "//").isPrefixOf rest then
    let authority := rest.drop 2
    let host := authority.takeWhile fun b => b ≠ Byte.slash
    let path := authority.dropWhile fun b => b ≠ Byte.slash
    if isLocalHost host && !path.isEmpty then some path else none
  else
    some rest

def withoutQuery (rest : Bytes) : Bytes :=
  rest.takeWhile fun b => b ≠ Byte.question && b ≠ Byte.numberSign

def path? (location : Bytes) : Option Bytes :=
  if hasScheme location then
    match afterHost? (location.drop scheme.length) with
    | none => none
    | some rest =>
        let encoded := withoutQuery rest
        if encoded.isEmpty then none else some (Percent.decode encoded)
  else
    none

end FileUrl
end CssText
