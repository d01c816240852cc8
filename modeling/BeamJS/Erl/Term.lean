import BeamJS.Js.JsString
import BeamJS.Js.Number
import BeamJS.Lib.Assoc

/-!
# Erlang terms

The terms that cross between the Elixir code and the engine. A map lists its entries in the order in
which `enif_map_iterator` visits them.
-/

namespace BeamJS

/-- A process identifier. -/
abbrev Pid := ℕ

/-- An Erlang float, which is always finite. -/
abbrev ErlFloat := {d : Double // d.isFinite = true}

/-- An Erlang term. -/
inductive Term where
  | int (n : ℤ)
  | float (d : ErlFloat)
  | atom (name : String)
  | binary (b : Bytes)
  | tuple (elems : List Term)
  /-- A proper list. -/
  | list (elems : List Term)
  | map (entries : List (Term × Term))
  | pid (p : Pid)
  | ref (r : ℕ)
  /-- A port or a function. -/
  | other

instance : Inhabited Term := ⟨.other⟩

namespace Term

/-- `nil` in Elixir. -/
def null : Term := .atom "nil"

def ok : Term := .atom "ok"

/-- `{:error, reason}`. -/
def errorTuple (reason : Term) : Term := .tuple [.atom "error", reason]

/-- Neither `nil` nor `false`. -/
def truthy : Term → Bool
  | .atom name => name != "nil" && name != "false"
  | _ => true

/-- `true` or `false`. -/
def ofBool (b : Bool) : Term := .atom (if b then "true" else "false")

/-- The entry under the binary key `k`. -/
def get? (k : String) : Term → Option Term
  | .map entries => entries.findSome? fun e =>
    match e.1 with
    | .binary b => if b = bytes k then some e.2 else none
    | _ => none
  | _ => none

mutual

/-- What an element of an iolist contributes. -/
def iolistElem : Term → Option Bytes
  | .int n => if 0 ≤ n ∧ n ≤ 255 then some [UInt8.ofNat n.toNat] else none
  | .binary b => some b
  | .list elems => iolistBytes elems
  | _ => none

/-- `enif_inspect_iolist_as_binary` on a list. -/
def iolistBytes : List Term → Option Bytes
  | [] => some []
  | t :: ts => do
    let b ← iolistElem t
    let bs ← iolistBytes ts
    return b ++ bs

end

/-- `enif_get_atom` with `ERL_NIF_LATIN1`: the name of an atom whose characters are all Latin-1. -/
def atomLatin1 (name : String) : Option Bytes :=
  if name.toList.all (·.toNat < 256) then some (bytes name) else none

end Term

/-- The order in which the maps of a virtual machine are iterated. It depends on the keys alone. -/
structure MapOrder where
  /-- Sort the entries. -/
  arrange : {α : Type} → List (Bytes × α) → List (Bytes × α)
  /-- Every entry is visited once. -/
  perm : ∀ {α : Type} (es : List (Bytes × α)), (arrange es).Perm es
  /-- The values play no part. -/
  natural : ∀ {α β : Type} (f : α → β) (es : List (Bytes × α)),
    arrange (es.map (Prod.map id f)) = (arrange es).map (Prod.map id f)

/-- The maps of a machine that iterates in the order of insertion. -/
def MapOrder.insertion : MapOrder where
  arrange es := es
  perm _ := .refl _
  natural _ _ := rfl

/-- The term of a map with binary keys. -/
def MapOrder.toMap (ord : MapOrder) (es : List (Bytes × Term)) : Term :=
  .map ((ord.arrange es).map fun e => (.binary e.1, e.2))

/-- `%{"k" => t}`. -/
def MapOrder.single (ord : MapOrder) (k : String) (t : Term) : Term := ord.toMap [(bytes k, t)]

end BeamJS
