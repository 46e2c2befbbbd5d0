import MarketCache.Json.Printer
import MarketCache.Text.Utf8

/-!
# Requests and replies

The messages that clients and the service exchange.

Main definitions:
* `Method`, `Target`, `Request`: what is asked.
* `Content`, `Answer`: what is answered.
* `Reply`: the answer as a message.
-/

namespace MarketCache.Http

/-- What is to be done with a resource. -/
inductive Method where
  | get
  | head
  | post
  | delete
  | options
  | other (name : String)
deriving DecidableEq, Repr

/-- The method of a name; names are compared letter by letter. -/
def Method.ofName : String → Method
  | "GET" => .get
  | "HEAD" => .head
  | "POST" => .post
  | "DELETE" => .delete
  | "OPTIONS" => .options
  | name => .other name

/-- The name of a method. -/
def Method.name : Method → String
  | .get => "GET"
  | .head => "HEAD"
  | .post => "POST"
  | .delete => "DELETE"
  | .options => "OPTIONS"
  | .other name => name

/-- Which resource a request is about. -/
structure Target where
  /-- With its escapes. -/
  path : List Char
  /-- What follows the first question mark, with its escapes. -/
  query : List Char
deriving DecidableEq, Repr

/-- What follows the scheme and the server of an absolute target, which starts with a scheme. -/
def Target.dropServer (cs : List Char) : List Char :=
  match cs.dropWhile (· != ':') with
  | ':' :: '/' :: '/' :: rest =>
    match rest.dropWhile fun c => c != '/' && c != '?' with
    | '/' :: path => '/' :: path
    | rest => '/' :: rest
  | _ => cs

/-- The target of a text. A fragment is no part of it, nor are the scheme and the server in
    front of a path. -/
def Target.ofText (text : String) : Target :=
  let cs := text.toList.takeWhile (· != '#')
  let cs := if cs.head? = some '/' then cs else dropServer cs
  ⟨cs.takeWhile (· != '?'), (cs.dropWhile (· != '?')).drop 1⟩

/-- Named values in front of a message, in order. -/
abbrev Headers := List (String × String)

/-- The first value of a header; names are compared without regard to case. -/
def Headers.value? (headers : Headers) (name : String) : Option String :=
  (headers.find? fun h => h.1.toLower == name.toLower).map (·.2)

/-- What a client asks. -/
structure Request where
  method : Method
  target : Target
  headers : Headers
  body : Bytes

/-- The body of an answer. -/
inductive Content where
  | nothing
  | json (value : Json)
  | text (s : String)

/-- The media type of a body. -/
def Content.mediaType? : Content → Option String
  | .nothing => none
  | .json _ => some "application/json"
  | .text _ => some "text/plain; charset=utf-8"

/-- The text of a body. -/
def Content.body : Content → String
  | .nothing => ""
  | .json value => value.toText
  | .text s => s

/-- What is answered: a status code and a body. -/
structure Answer where
  status : Nat
  content : Content

/-- An answer as a message. -/
structure Reply where
  status : Nat
  headers : Headers
  body : String
deriving DecidableEq, Repr

/-- The message of an answer, with more headers behind the one for its media type. -/
def Answer.toReply (a : Answer) (headers : Headers) : Reply where
  status := a.status
  headers := (a.content.mediaType?.map ("content-type", ·)).toList ++ headers
  body := a.content.body

/-- The message without its body. -/
def Reply.headersOnly (r : Reply) : Reply := { r with body := "" }

end MarketCache.Http
