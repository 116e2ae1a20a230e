import XsdCatalog.Error
import XsdCatalog.Source.Path
import XsdCatalog.Text.Blank
import XsdCatalog.Text.PercentEncoding
import XsdCatalog.Text.Utf8

/-!
# Document locators

A locator is a `file:` URI or a local path. Other schemes are refused. A letter before the first
colon counts as a drive and not as a scheme.
-/

namespace XsdCatalog.Locator

/-- The text behind the scheme, if the locator has this scheme in any letter case. -/
def behindScheme? (scheme locator : String) : Option String :=
  match Text.cut? ':' locator with
  | some (head, rest) =>
    if head.toList.map Char.toLower = scheme.toList.map Char.toLower then some rest else none
  | none => none

/-- A scheme of two characters or more stands before the first colon. -/
def hasScheme (locator : String) : Bool :=
  match Text.cut? ':' locator with
  | some (head, _) =>
    match head.toList with
    | c :: d :: cs =>
      c.isAlpha && (d :: cs).all fun x => x.isAlphanum || x == '+' || x == '-' || x == '.'
    | _ => false
  | none => false

/-- The text behind `mark`, if the text begins with it. -/
def behind? (mark text : String) : Option String :=
  if mark.toList.isPrefixOf text.toList then some (String.ofList (text.toList.drop mark.length))
  else none

/-- What is left of a `file:` URI without its authority. -/
def withoutAuthority (rest : String) : String :=
  ((behind? "//localhost" rest).or (behind? "//" rest)).getD rest

/-- The text that an escaped text stands for. -/
def decode (text : String) : Except Error String :=
  match Text.ofBytes? (Text.percentDecode (Text.toBytes text)) with
  | some decoded => .ok decoded
  | none => .error (.unsupportedLocator ("invalid UTF-8 in '" ++ text ++ "'"))

/-- The absolute path that a locator names, seen from a directory. -/
def toPath (directory locator : String) : Except Error String :=
  let locator := Text.trim locator
  if locator = "" then .error .emptyLocator
  else
    match behindScheme? "file" locator with
    | some rest => (decode (withoutAuthority rest)).map (Path.join directory)
    | none =>
      if hasScheme locator then .error (.unsupportedLocator locator)
      else .ok (Path.join directory locator)

end XsdCatalog.Locator
