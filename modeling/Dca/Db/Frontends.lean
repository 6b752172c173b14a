import Dca.Db.Requests

/-!
# CoAP and the shell

The handler of CoAP and `_dcaq` look a path up in the same way and go through the same children, but
one appends to an array what the other one prints. So the response is a function of the answer in
the shell, and both leave the shared variables in the same state.
-/

namespace Dca

open CLib

variable {db : Db}

/-- The response that goes with an answer in the shell. The listing has to fit the array `val`. -/
def CoapPkt.respond (pdu : CoapPkt) : Answer dcaCoapStrbufSize → Res CoapResponse
  | .notFound => return .notFound
  | .children names =>
    if (listing names).length < dcaCoapStrbufSize then
      return contentOr500 pdu (listing names).chars
    else .error .bounds
  | .value buf r =>
    if r < 0 then return .internalServerError
    else return contentOr500 pdu (buf.chars.take r.toNat)
  | .invalid => return .content []

/-- The variables of both functions hold the same at the start. The handler ends the string in `val`
before it calls anything. -/
structure SameJunk {pdu : CoapPkt} (coap : CoapStack pdu) (shell : Stack) : Prop where
  child : shell.node = coap.child
  name : shell.name = coap.name
  val : coap.val.set 0 nul = some shell.str

/-! ## The children -/

section Children

variable {c : Cursor} {name : NameBuf} {g' : Globals} {names : List CString} {fuel : Nat}
  {val : Buf dcaCoapStrbufSize} {text : CString}

/-- The handler reads the name that the shell prints, and appends it. -/
theorem coapChildren_next (hnull : dbNodeIsNull db c.g c.child = .ok false) {nameBuf : NameBuf}
    (hname : dbNodeGetName db c.g c.child name = .ok nameBuf) {k : Nat}
    (hlen : nameBuf.strlen = some k) (val : Buf dcaCoapStrbufSize) :
    coapChildren db (fuel + 1) name val c = (do
      let val ← inBounds (val.strncat nameBuf.str (dcaCoapStrbufSize - 1))
      let val ← inBounds (val.strncat (.lit " ") (dcaCoapStrbufSize - 1))
      coapChildren db fuel nameBuf val (← dbNodeGetNextChild db c)) := by
  simp only [coapChildren, hnull, hname, hlen, inBounds, ok_bind, Bool.false_eq_true, if_false]

/-- **The loops go through the same children**, by induction on the turns. -/
theorem coapChildren_of_names (h : childNames db fuel name c = .ok (g', names))
    (hval : val.Shows text) :
    (text.length + (listing names).length < dcaCoapStrbufSize →
      ∃ val', coapChildren db fuel name val c = .ok (g', val') ∧
        val'.Shows (text.append (listing names))) ∧
    (dcaCoapStrbufSize ≤ text.length + (listing names).length →
      coapChildren db fuel name val c = .error .bounds) := by
  induction fuel generalizing c name names val text with
  | zero => cases h
  | succ fuel ih =>
    obtain ⟨null, hnull, h⟩ := bind_eq_ok.mp h
    cases null with
    | true =>
      obtain ⟨rfl, rfl⟩ := Prod.mk.inj (Except.ok.inj h)
      have hstop : coapChildren db (fuel + 1) name val c = .ok (c.g, val) := by
        simp only [coapChildren, hnull, ok_bind, if_true, pure_eq_ok]
      refine ⟨fun _ => ⟨val, hstop, ?_⟩, fun hlong => ?_⟩
      · rwa [listing, CString.append_empty]
      · rw [listing, length_empty] at hlong
        exact absurd hval.length_lt (Nat.not_lt.mpr hlong)
    | false =>
      obtain ⟨nameBuf, hname, h⟩ := bind_eq_ok.mp h
      obtain ⟨k, hlen, h⟩ := bind_eq_ok.mp h
      obtain ⟨c', hnext, h⟩ := bind_eq_ok.mp h
      obtain ⟨⟨g₁, rest⟩, hrest, h⟩ := bind_eq_ok.mp h
      obtain ⟨rfl, rfl⟩ := Prod.mk.inj (Except.ok.inj h)
      have hshows : nameBuf.Shows nameBuf.str := Buf.shows_of_strlen (inBounds_eq_ok.mp hlen)
      have hshort : nameBuf.str.length ≤ dcaCoapStrbufSize - 1 :=
        Nat.le_trans (Nat.le_of_lt hshows.length_lt) (by decide)
      have hspace := length_space
      have hlisting : (listing (nameBuf.str :: rest)).length
          = nameBuf.str.length + 1 + (listing rest).length := by
        rw [listing, CString.length_append, CString.length_append, length_space]
      rw [coapChildren_next hnull hname (inBounds_eq_ok.mp hlen) val, hlisting]
      -- whether the name has room, and the space behind it
      by_cases hroom : text.length + nameBuf.str.length < dcaCoapStrbufSize
      · obtain ⟨val₁, hval₁, hs₁⟩ := hval.strncat_of_lt hshort hroom
        have hlen₁ : (text.append nameBuf.str).length = text.length + nameBuf.str.length :=
          CString.length_append _ _
        by_cases hroom' : (text.append nameBuf.str).length + (CString.lit " ").length
            < dcaCoapStrbufSize
        · obtain ⟨val₂, hval₂, hs₂⟩ :=
            hs₁.strncat_of_lt (k := dcaCoapStrbufSize - 1) (by decide) hroom'
          obtain ⟨hfits, hlong⟩ := ih hrest hs₂
          rw [CString.length_append, hlen₁, hspace] at hfits hlong
          simp only [hval₁, hval₂, inBounds, ok_bind, hnext]
          refine ⟨fun hlt => ?_, fun hle => hlong (by omega)⟩
          obtain ⟨val', hloop, hs'⟩ := hfits (by omega)
          refine ⟨val', hloop, ?_⟩
          rwa [CString.append_assoc, CString.append_assoc, ← CString.append_assoc nameBuf.str] at hs'
        · rw [hval₁, inBounds, ok_bind, hs₁.strncat_eq_none (by decide) (Nat.le_of_not_lt hroom')]
          refine ⟨fun hlt => ?_, fun _ => rfl⟩
          rw [hlen₁, hspace] at hroom'
          omega
      · rw [hval.strncat_eq_none hshort (Nat.le_of_not_lt hroom)]
        refine ⟨fun hlt => ?_, fun _ => rfl⟩
        omega

end Children

/-! ## The response -/

section Response

variable {w : FileWidth} {pdu : CoapPkt} {path : CString} {coap : CoapStack pdu} {shell : Stack}
  {fuel : Nat} {g g' : Globals}

/-- What is appended for an inner node is the payload, or leaves the array. -/
theorem respond_children {names : List CString} {c : Cursor} {val : Buf dcaCoapStrbufSize}
    (hval : val.Shows (.lit ""))
    (h : childNames db fuel coap.name c = .ok (g', names)) :
    (do
      let (g, val) ← coapChildren db fuel coap.name val c
      return (g, ← coapContent pdu val (← inBounds val.strlen)))
      = (g', ·) <$> pdu.respond (.children names) := by
  obtain ⟨hfits, hlong⟩ := coapChildren_of_names h hval
  rw [length_empty, Nat.zero_add] at hfits hlong
  rw [CoapPkt.respond]
  by_cases hlt : (listing names).length < dcaCoapStrbufSize
  · obtain ⟨val', hloop, hs⟩ := hfits hlt
    have hnothing : (CString.lit "").append (listing names) = listing names := rfl
    rw [hnothing] at hs
    rw [hloop, if_pos hlt]
    simp only [ok_bind, hs.strlen_eq, inBounds, coapContent_listing hs, hlt, true_and]
    rfl
  · rw [hlong (Nat.le_of_not_lt hlt), if_neg hlt]
    rfl

/-- The bytes of a value are the payload. -/
theorem respond_value {val : Buf dcaCoapStrbufSize} {r : Int} (hle : r ≤ dcaCoapStrbufSize) :
    (do
      if r < 0 then return (g', CoapResponse.internalServerError)
      return (g', ← coapContent pdu val r.toNat))
      = (g', ·) <$> pdu.respond (.value val r) := by
  rw [CoapPkt.respond]
  split_ifs with hneg
  · rfl
  · have hsize : r.toNat ≤ dcaCoapStrbufSize := by omega
    have hlen : (val.chars.take r.toNat).length = r.toNat := by
      rw [List.length_take, val.size]
      exact Nat.min_eq_left hsize
    rw [coapContent_of_le hsize, contentOr500, hlen]
    rfl

/--
**CoAP answers as the shell does.** Where `_dcaq` comes back with an answer for the part of the path
behind `/dca`, the handler leaves the shared variables in the same state, and its response goes with
that answer.
-/
theorem coap_answers_as_shell (h : Extracts w pdu path) (hrouted : Routed path)
    (hfits : path.length < pdu.uriMax) (hjunk : SameJunk coap shell)
    {answer : Answer dcaShellStrbufSize}
    (hanswer : dcaq db shell fuel g (path.drop 4) = .ok (g', answer)) :
    dcaHandler db w pdu coap fuel g = (g', ·) <$> pdu.respond answer := by
  obtain ⟨found, hfind, hanswer⟩ := bind_eq_ok.mp hanswer
  have hlookup : dbFindNodeByPath db fuel g (path.drop 4) coap.childNode coap.nameBuf = .ok found := by
    rw [dbFindNodeByPath_eq_fold, ← hfind, dbFindNodeByPath_eq_fold]
  obtain ⟨val, hset, hval⟩ : ∃ val : Buf dcaCoapStrbufSize,
      coap.val.set 0 nul = some val ∧ val = shell.str := ⟨_, hjunk.val, rfl⟩
  have hlen := h.long_of_fits hfits hrouted coap.uripath
  have huri := h.uripath_of_fits hfits hrouted coap.uripath
  by_cases hcode : found.code < 0
  · rw [if_pos hcode] at hanswer
    obtain ⟨rfl, rfl⟩ := Prod.mk.inj (Except.ok.inj hanswer)
    simp only [dcaHandler, if_neg hlen, huri, hlookup, inBounds, ok_bind, if_pos hcode]
    rfl
  · rw [if_neg hcode] at hanswer
    obtain ⟨type, htype, hanswer⟩ := bind_eq_ok.mp hanswer
    cases type with
    | null =>
      obtain ⟨rfl, rfl⟩ := Prod.mk.inj (Except.ok.inj hanswer)
      simp only [dcaHandler, if_neg hlen, huri, hlookup, inBounds, ok_bind, if_neg hcode, hset,
        htype, coapContent_of_le (Nat.zero_le _)]
      rfl
    | inner =>
      obtain ⟨c, hnext, hanswer⟩ := bind_eq_ok.mp hanswer
      obtain ⟨⟨g₁, names⟩, hnames, hanswer⟩ := bind_eq_ok.mp hanswer
      obtain ⟨rfl, rfl⟩ := Prod.mk.inj (Except.ok.inj hanswer)
      rw [hjunk.child] at hnext
      rw [hjunk.name] at hnames
      have hempty : val.Shows (.lit "") := by
        obtain ⟨val', hset', hs⟩ :=
          Buf.shows_set (b := coap.val) (s := .lit "") List.nil_prefix (by decide)
        obtain rfl : val' = val := Option.some.inj (hset'.symm.trans hset)
        exact hs
      simp only [dcaHandler, if_neg hlen, huri, hlookup, inBounds, ok_bind, if_neg hcode, hset, htype,
        hnext]
      exact respond_children hempty hnames
    | int | float | str =>
      obtain ⟨⟨g₁, buf, r⟩, htext, hanswer⟩ := bind_eq_ok.mp hanswer
      obtain ⟨rfl, rfl⟩ := Prod.mk.inj (Except.ok.inj hanswer)
      have htext' : dbNodeValueToStr db found.g found.node val = .ok (g₁, buf, r) := by
        rw [hval]
        exact htext
      simp only [dcaHandler, if_neg hlen, huri, hlookup, inBounds, ok_bind, if_neg hcode, hset, htype,
        htext']
      exact respond_value (size_of_valueToStr htext)

end Response

/-- The static entries of `/board`, over CoAP and in the shell. -/
theorem coap_answers_as_shell_small :
    ∃ g' answer, dcaq smallDb ⟨.null, Buf.zero _, Buf.zero _⟩ 12 {}
        ((CString.lit "/dca/board").drop 4) = .ok (g', answer) ∧
      answer = .children (["name", "mcu", "ram", "clock", "nonvolatile"].map .lit) ∧
      dcaHandler smallDb ⟨32, by decide⟩ (.get 64 (.lit "/dca/board") 64) (emptyCoapStack _) 12 {}
        = (g', ·) <$> (CoapPkt.get 64 (.lit "/dca/board") 64).respond answer := by
  have hrun : ∃ r, dcaq smallDb ⟨.null, Buf.zero _, Buf.zero _⟩ 12 {}
      ((CString.lit "/dca/board").drop 4) = .ok r ∧
        r.2 = .children (["name", "mcu", "ram", "clock", "nonvolatile"].map .lit) :=
    exists_ok_of_any (by decide +kernel)
  obtain ⟨⟨g', answer⟩, hrun, hanswer⟩ := hrun
  exact ⟨g', answer, hrun, hanswer, coap_answers_as_shell (extracts_get (by decide)) (by decide)
    (by decide) ⟨rfl, rfl, rfl⟩ hrun⟩

end Dca
