import Mathlib.Data.Nat.Notation

/-!
# `install.js`

`followRedirects` as a state that the responses of the server drive: every request that is under way
is answered by the next response, and its handler calls back or starts another request.
-/

namespace BeamJS

namespace Install

/-- A response, as far as `followRedirects` looks at it. -/
structure Response where
  statusCode : ℕ
  /-- `res.headers.location`. -/
  location : Option String
deriving DecidableEq

/-- Where the response sends the client, if it does. An empty location is falsy. -/
def Response.redirect? (res : Response) : Option String :=
  if res.statusCode = 301 ∨ res.statusCode = 302 then res.location.filter (· ≠ "") else none

/-- The module that a request is made with. -/
inductive Proto where
  | http | https
deriving DecidableEq

/-- `url.startsWith("https") ? https : require("http")`. -/
def protoOf (url : String) : Proto :=
  if "https".toList.isPrefixOf url.toList then .https else .http

/-- The client: the requests it has issued, what it has called back with, and, while a request is
under way, the `maxRedirects` that the handler of its response has. -/
structure Client where
  requests : List (Proto × String)
  callbacks : List Response
  pending : Option ℕ
deriving DecidableEq

/-- `maxRedirects || 5`. -/
def defaultRedirects : Option ℕ → ℕ
  | none => 5
  | some 0 => 5
  | some n => n

/-- `followRedirects` up to `proto.get`. -/
def followRedirects (client : Client) (url : String) (maxRedirects : Option ℕ) : Client where
  requests := client.requests ++ [(protoOf url, url)]
  callbacks := client.callbacks
  pending := some (defaultRedirects maxRedirects)

/-- `callback(res)`. -/
def callback (client : Client) (res : Response) : Client where
  requests := client.requests
  callbacks := client.callbacks ++ [res]
  pending := none

/-- The handler of the response to the request under way. -/
def onResponse (client : Client) (res : Response) : Client :=
  match client.pending with
  | none => client
  | some maxRedirects =>
    match res.redirect? with
    | some location =>
      if maxRedirects ≤ 0 then callback client res
      else followRedirects client location (some (maxRedirects - 1))
    | none => callback client res

/-- A server, as the chain of its responses. -/
abbrev Server := ℕ → Response

/-- The client after its call `followRedirects(url, callback)` and the first `n` responses. -/
def after (server : Server) (url : String) : ℕ → Client
  | 0 => followRedirects ⟨[], [], none⟩ url none
  | n + 1 => onResponse (after server url n) (server n)

end Install

end BeamJS
