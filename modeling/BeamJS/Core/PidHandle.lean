import BeamJS.Nif.TermConvert

/-!
# Pid handles

`serialize_pid` and `deserialize_pid` of `process.ex`, and the way of a handle through JavaScript:
it is sent from one context to the next, alone or inside a container.
-/

namespace BeamJS

open Lib

/-- `term_to_binary` with Base64, and the way back, which is `none` where it raises. -/
structure PidCodec where
  /-- `:erlang.term_to_binary(pid) |> Base.encode64()`. -/
  encode : Pid → Bytes
  /-- `data |> Base.decode64!() |> :erlang.binary_to_term()`. -/
  decode : Bytes → Option Term
  /-- The two are inverse on pids. -/
  decode_encode : ∀ p, decode (encode p) = some (.pid p)

/-- A codec for the pid of the number 110 on the node `nonode@nohost`. -/
def sampleCodec : PidCodec where
  encode p :=
    if p = 110 then bytes "g1h3DW5vbm9kZUBub2hvc3QAAABuAAAAAAAAAAA=" else List.replicate p 65
  decode b :=
    if b = bytes "g1h3DW5vbm9kZUBub2hvc3QAAABuAAAAAAAAAAA=" then some (.pid 110)
    else some (.pid b.length)
  decode_encode p := by
    by_cases hp : p = 110
    · simp [hp]
    · have hne : List.replicate p (65 : UInt8) ≠
          bytes "g1h3DW5vbm9kZUBub2hvc3QAAABuAAAAAAAAAAA=" := by
        intro h
        have hmem : (103 : UInt8) ∈ List.replicate p 65 := h ▸ by decide
        simp at hmem
      simp [hp, hne]

/-- `serialize_pid`. -/
def serializePid (ord : MapOrder) (codec : PidCodec) (p : Pid) : Term :=
  ord.toMap [(bytes "__beamjs_type", .binary (bytes "pid")),
    (bytes "__beamjs_data", .binary (codec.encode p))]

/-- `deserialize_pid`: the term in `{:ok, pid}`, or `none` for `{:error, :invalid_pid}`. -/
def deserializePid (codec : PidCodec) : Term → Option Term
  | .map entries =>
    match (Term.map entries).get? "__beamjs_type", (Term.map entries).get? "__beamjs_data" with
    | some (.binary type), some (.binary data) => if type = bytes "pid" then codec.decode data else none
    | _, _ => none
  | .pid p => some (.pid p)
  | _ => none

/-- Distinct names in ASCII without NUL, none of them `__proto__`. -/
def literalNames (ks : List JsString) : Bool :=
  decide ks.Nodup && ks.all fun k => k.all (fun c => 0 < c && c < 0x80) && k != js "__proto__"

/-- Literal names, none of which has a meaning to the conversions. -/
def ordinaryNames (ks : List JsString) : Bool :=
  literalNames ks && !ks.contains (js "__beamjs_type")

/-- A place for a handle inside arrays and object literals. -/
inductive Container where
  | here
  | inArray (before : List JsValue) (c : Container) (after : List JsValue)
  | inObject (before : List (JsString × JsValue)) (k : JsString) (c : Container)
      (after : List (JsString × JsValue))
      (ordinary : ordinaryNames (Assoc.keys before ++ k :: Assoc.keys after) = true)

namespace Container

/-- The container with the handle `h` in its place. -/
def fill (h : JsValue) : Container → JsValue
  | .here => h
  | .inArray before c after => .array (before ++ c.fill h :: after)
  | .inObject before k c after _ => .object none (before ++ (k, c.fill h) :: after)

/-- What stands in the place of the handle. -/
def at? : Container → JsValue → Option JsValue
  | .here, v => some v
  | .inArray before c _, .array elems => elems[before.length]? >>= c.at?
  | .inObject _ k c _ _, .object _ props => props.lookup k >>= c.at?
  | _, _ => none

end Container

/-- A message that carries a handle to another context. -/
structure Hop where
  /-- Where the handle stands in the message. -/
  container : Container
  /-- The names that the receiving runtime knows. -/
  known : Atoms

/-- The handle that the receiver finds. -/
def Hop.receive (ord : MapOrder) (h : JsValue) (hop : Hop) : Option JsValue := do
  let t ← jsValueToErl ord (hop.container.fill h)
  hop.container.at? (erlTermToJs hop.known t).1

/-- The handle of `p` in the context that asked for it. -/
def firstHandle (ord : MapOrder) (codec : PidCodec) (known : Atoms) (p : Pid) : JsValue :=
  (erlTermToJs known (serializePid ord codec p)).1

/-- The handle of `p` after some hops. -/
def handleAfter (ord : MapOrder) (codec : PidCodec) (known : Atoms) (p : Pid) (hops : List Hop) :
    Option JsValue :=
  hops.foldlM (Hop.receive ord) (firstHandle ord codec known p)

/-- As an argument of a host function, the handle is taken for the process `p`. -/
def Addresses (ord : MapOrder) (codec : PidCodec) (h : JsValue) (p : Pid) : Prop :=
  ∃ t, jsValueToErl ord h = some t ∧ deserializePid codec t = some (.pid p)

end BeamJS
