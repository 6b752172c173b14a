import Dca.Db.Fs

/-!
# `coap.c`: the database over CoAP

A request of `/dca/...` is answered with the names of the children of a node, or with its value. What
`gcoap` does with the packet stands outside: `CoapPkt` has what the handler learns from it.
-/

namespace Dca

open CLib

variable (db : Db)

/-- `DCA_COAP_STRBUF_SIZE` -/
def dcaCoapStrbufSize : Nat := 128

/--
`coap_pkt_t`, with `CONFIG_NANOCOAP_URI_MAX`. `getUriPath` is what `coap_get_uri_path` leaves in the
array and returns. `payloadLen` is `payload_len` behind the header of the answer.
-/
structure CoapPkt where
  uriMax : Nat
  getUriPath : Buf uriMax → Buf uriMax × Int
  payloadLen : Nat

/-- `-ENOSPC` -/
def enospc : Int := -28

/-- The packet of a request, with `coap_get_uri_path` as it is documented: the length that it returns
counts the terminator. -/
def CoapPkt.get (uriMax : Nat) (path : CString) (payloadLen : Nat) : CoapPkt where
  uriMax
  getUriPath uripath :=
    match uripath.strcpy path with
    | some uripath => (uripath, (path.length : Int) + 1)
    | none => (uripath, enospc)
  payloadLen

/-- 4.04, 5.00, and 2.05 with the payload. -/
inductive CoapResponse where
  | notFound
  | internalServerError
  | content (payload : List Char)
  deriving DecidableEq

/-- What the uninitialised variables of a call of `_dca_handler` and of its lookup hold. -/
structure CoapStack (pdu : CoapPkt) where
  uripath : Buf pdu.uriMax
  childNode : DbNode
  nameBuf : NameBuf
  val : Buf dcaCoapStrbufSize
  child : DbNode
  name : NameBuf

/-- `print a list of all child nodes`: the loop, after the first call of `get_next_child`. -/
def coapChildren : Nat → NameBuf → Buf dcaCoapStrbufSize → Cursor →
    Res (Globals × Buf dcaCoapStrbufSize)
  | 0, _, _, _ => .error .fuel
  | fuel + 1, name, val, c => do
    if ← dbNodeIsNull db c.g c.child then return (c.g, val)
    let name ← dbNodeGetName db c.g c.child name
    -- the name is read up to its terminator
    let _ ← inBounds name.strlen
    let val ← inBounds (val.strncat name.str (dcaCoapStrbufSize - 1))
    let val ← inBounds (val.strncat (.lit " ") (dcaCoapStrbufSize - 1))
    coapChildren fuel name val (← dbNodeGetNextChild db c)

/-- The end of `_dca_handler`: the first `vallen` bytes of the array, if the packet has the room. -/
def coapContent (pdu : CoapPkt) (val : Buf dcaCoapStrbufSize) (vallen : Nat) : Res CoapResponse := do
  if vallen ≤ pdu.payloadLen then return .content (← inBounds (val.memcpyFrom 0 vallen))
  else return .internalServerError

/-- `_dca_handler`. The length of the path is negative where there is none. -/
def dcaHandler (w : FileWidth) (pdu : CoapPkt) (stack : CoapStack pdu) (fuel : Nat) (g : Globals) :
    Res (Globals × CoapResponse) := do
  let (uripath, r) := pdu.getUriPath stack.uripath
  let uripathlen : w.Word := BitVec.ofInt w.bits r
  if uripathlen.toNat ≤ 4 then return (g, .notFound)
  let dbpath ← inBounds (uripath.strFrom 4)
  let found ← dbFindNodeByPath db fuel g dbpath stack.childNode stack.nameBuf
  if found.code < 0 then return (found.g, .notFound)
  let val ← inBounds (stack.val.set 0 nul)
  match ← dbNodeGetType db found.g found.node with
  | .inner =>
    let c ← dbNodeGetNextChild db ⟨found.g, found.node, stack.child⟩
    let (g, val) ← coapChildren db fuel stack.name val c
    return (g, ← coapContent pdu val (← inBounds val.strlen))
  | .int | .float | .str =>
    let (g, val, r) ← dbNodeValueToStr db found.g found.node val
    if r < 0 then return (g, .internalServerError)
    return (g, ← coapContent pdu val r.toNat)
  | .null => return (found.g, ← coapContent pdu val 0)

end Dca
