import BeamJS.Nif.MapTrip

/-!
# Data handed from context to context

A term enters a context by `erl_term_to_js`, and what it became leaves the context again by
`js_value_to_erl`, as a message does that one process after the other passes on. On its way a term
loses what JavaScript has no value for; `bulk` says how much of it can still be lost, and a term
that is `settled` has nothing left to lose.
-/

namespace BeamJS

open Lib JsValue

/-- The term goes into a context whose runtime knows the atoms, and comes out again. -/
def hop (ord : MapOrder) (known : Atoms) (t : Term) : Option Term :=
  jsValueToErl ord (erlTermToJs known t).1

/-- The term is handed on from context to context. -/
def hops (ord : MapOrder) (contexts : List Atoms) (t : Term) : Option Term :=
  contexts.foldlM (fun t known => hop ord known t) t

def isAscii (b : Bytes) : Bool := b.all fun c => c.toNat < 0x80

/-- The name that the key gives a property, if it gives one, is ASCII. -/
def asciiKey (k : Term) : Bool := (erlKeyToBuf k).elim true isAscii

mutual

/-- The maps in the term have names in ASCII only. -/
def asciiKeys : Term → Bool
  | .tuple elems | .list elems => allAsciiKeys elems
  | .map entries => entriesAsciiKeys entries
  | _ => true

def allAsciiKeys : List Term → Bool
  | [] => true
  | t :: ts => asciiKeys t && allAsciiKeys ts

def entriesAsciiKeys : List (Term × Term) → Bool
  | [] => true
  | (k, t) :: es => asciiKey k && asciiKeys t && entriesAsciiKeys es

end

/-- The key is a binary that a name comes back as: ASCII without NUL, and not the name of the
accessor. -/
def keepsKey : Term → Bool
  | .binary b => isAscii b && !b.contains 0 && b != bytes "__proto__"
  | _ => false

mutual

/-- The term has nothing left to lose. -/
def settled : Term → Bool
  | .int n => inInt32 n
  | .float ⟨.finite q, _⟩ => !isWholeInt32 q
  | .atom name => name == "true" || name == "false" || name == "nil" || name == "undefined"
  | .binary b => isText b
  | .list elems => (Term.iolistBytes elems).isNone && allSettled elems
  | .map entries =>
    decide (Assoc.keys entries).Nodup && !isPidMap entries && entriesSettled entries
  | _ => false

def allSettled : List Term → Bool
  | [] => true
  | t :: ts => settled t && allSettled ts

def entriesSettled : List (Term × Term) → Bool
  | [] => true
  | (k, t) :: es => keepsKey k && settled t && entriesSettled es

end

/-! ## What can be lost -/

/-- A key counts twice if it is no binary or if its name is cut at a NUL. -/
def keyBulk : Term → ℕ
  | .binary b => if b.contains 0 then 2 else 1
  | _ => 2

mutual

/-- How much of the term there is to lose: it bounds the number of contexts that change it. -/
def bulk : Term → ℕ
  | .tuple elems => 3 + bulkElems elems
  | .list elems => 2 + bulkElems elems
  | .map entries => 2 + bulkEntries entries
  | t => if settled t then 1 else 2

def bulkElems : List Term → ℕ
  | [] => 0
  | t :: ts => bulk t + bulkElems ts

def bulkEntries : List (Term × Term) → ℕ
  | [] => 0
  | (k, t) :: es => keyBulk k + bulk t + bulkEntries es

end

mutual

/-- The same for what a term has become in a context. -/
def jsBulk : JsValue → ℕ
  | .array elems => 2 + jsBulkElems elems
  | .object proto props => 2 + jsBulkProto proto + jsBulkProps props
  | _ => 1

def jsBulkElems : List JsValue → ℕ
  | [] => 0
  | v :: vs => jsBulk v + jsBulkElems vs

def jsBulkProto : Option JsValue → ℕ
  | none => 0
  | some p => jsBulk p

def jsBulkProps : List (JsString × JsValue) → ℕ
  | [] => 0
  | (_, v) :: props => 1 + jsBulk v + jsBulkProps props

end

mutual

/-- The values that terms with names in ASCII become. -/
def ofTerm : JsValue → Bool
  | .undefined | .null | .bool _ | .string _ => true
  | .number n => n.toDouble.isFinite
  | .array elems => allOfTerm elems
  | .object proto props => protoOfTerm proto && propsOfTerm props
  | _ => false

def allOfTerm : List JsValue → Bool
  | [] => true
  | v :: vs => ofTerm v && allOfTerm vs

def protoOfTerm : Option JsValue → Bool
  | none => true
  | some p => ofTerm p

def propsOfTerm : List (JsString × JsValue) → Bool
  | [] => true
  | (k, v) :: props => (k.all fun c => c.toNat < 0x80) && ofTerm v && propsOfTerm props

end

end BeamJS
