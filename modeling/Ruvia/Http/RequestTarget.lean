import Ruvia.Http.UriGrammar

/-!
# `Http.RequestTarget` — methods and the four request-target forms

`classify_http_method` and `parse_request_target`.
-/

namespace Ruvia.Http

open Library

inductive HttpKnownMethod where
  | get
  | post
  | put
  | delete
  | patch
  | head
  | options
  | connect
  | unknown
  deriving DecidableEq, Repr

def classifyHttpMethod (method : Bytes) : HttpKnownMethod :=
  if method = lit "GET" then .get
  else if method = lit "PUT" then .put
  else if method = lit "POST" then .post
  else if method = lit "HEAD" then .head
  else if method = lit "PATCH" then .patch
  else if method = lit "DELETE" then .delete
  else if method = lit "OPTIONS" then .options
  else if method = lit "CONNECT" then .connect
  else .unknown

inductive HttpRequestTargetForm where
  | origin
  | absolute
  | authority
  | asterisk
  deriving DecidableEq, Repr

structure RequestTargetView where
  scheme : Bytes := []
  path : Bytes
  query : Bytes := []
  authority : Bytes := []
  form : HttpRequestTargetForm
  deriving DecidableEq, Repr

/-- The text in front of the first `?`, and the text behind it. -/
def splitQuery (target : Bytes) : Bytes × Bytes :=
  match findByte questionMark target 0 with
  | none => (target, [])
  | some separator => (target.take separator, target.drop (separator + 1))

/-- The byte repertoire all forms share. -/
def isValidRequestTargetBytes (target : Bytes) : Bool :=
  !target.isEmpty &&
    isValidPercentEncoded
      (fun b => isUriPchar b || b == slash || b == questionMark || b == openBracket || b == closeBracket)
      target

def isValidConnectAuthorityForm (target : Bytes) : Bool :=
  match parseHttpAuthority target with
  | some ⟨_, .value port⟩ => port != 0
  | _ => false

def splitOriginFormTarget (target : Bytes) : Option (Bytes × Bytes) :=
  if target.head? = some slash then
    let (path, query) := splitQuery target
    if isValidUriComponent path true false && isValidUriComponent query true true then some (path, query)
    else none
  else none

def parseAbsoluteTarget (method : HttpKnownMethod) (target : Bytes) : Option RequestTargetView :=
  match findByte colon target 0 with
  | none => none
  | some schemeEnd =>
    let scheme := target.take schemeEnd
    if !httpAsciiEqualsIgnoreCase scheme (lit "http") && !httpAsciiEqualsIgnoreCase scheme (lit "https") then
      none
    else
      let remainder := target.drop (schemeEnd + 1)
      let (hierarchy, query) := splitQuery remainder
      if !([slash, slash].isPrefixOf hierarchy) || !isValidUriComponent query true true then none
      else
        let authorityAndPath := hierarchy.drop 2
        let pathSeparator := (findByte slash authorityAndPath 0).getD authorityAndPath.length
        let authority := authorityAndPath.take pathSeparator
        let path := authorityAndPath.drop pathSeparator
        if authority.isEmpty || !isValidHostHeader authority || !isValidUriComponent path true false then none
        else
          let path :=
            if path.isEmpty ∧ method = .options ∧ findByte questionMark remainder 0 = none then lit "*"
            else if path.isEmpty then lit "/"
            else path
          some { scheme, path, query, authority, form := .absolute }

def parseRequestTarget (method : HttpKnownMethod) (target : Bytes) : Option RequestTargetView :=
  if target = lit "*" then
    if method = .options then some { path := lit "*", form := .asterisk } else none
  else if method = .connect then
    if isValidConnectAuthorityForm target then
      some { path := target, authority := target, form := .authority }
    else none
  else
    match target with
    | [] => none
    | first :: _ =>
      if first = slash then
        (splitOriginFormTarget target).map fun (path, query) => { path, query, form := .origin }
      else if isValidRequestTargetBytes target = false then none
      else parseAbsoluteTarget method target

example : parseRequestTarget .get (lit "http://a:80?x") =
    some { scheme := lit "http", path := lit "/", query := lit "x", authority := lit "a:80",
           form := .absolute } := by decide +kernel

end Ruvia.Http
