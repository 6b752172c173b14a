import Dca.Db.Coap
import Dca.Db.Devices

/-!
# Listings over CoAP

The handler appends the names of the children to an array of 128 bytes. Each call of `strncat` limits
what it appends and not what is there in the end, so the array is left as soon as the names and the
spaces behind them take 128 bytes. The check against the size of the packet comes later.
-/

namespace Dca

open CLib

/-! ## The statement -/

section Statement

variable (db : Db)

/-- The children that calls from a cursor on give, by their names, and the state that is left. -/
inductive ChildrenNamed : Cursor → List CString → Globals → Prop where
  | last {c c₁ : Cursor} (hnext : dbNodeGetNextChild db c = .ok c₁)
      (hend : dbNodeIsNull db c₁.g c₁.child = .ok true) : ChildrenNamed c [] c₁.g
  | child {c c₁ : Cursor} {g : Globals} {name : CString} {names : List CString}
      (hnext : dbNodeGetNextChild db c = .ok c₁) (hchild : Offers db c₁ name)
      (hrest : ChildrenNamed c₁ names g) : ChildrenNamed c (name :: names) g

/-- Every name with a space behind it. -/
def listing : List CString → CString
  | [] => .lit ""
  | name :: names => (name.append (.lit " ")).append (listing names)

/-- A request with a path that leads to an inner node whose children have the names. -/
structure DirectoryRequest (w : FileWidth) (pdu : CoapPkt) (stack : CoapStack pdu) (fuel : Nat)
    (g : Globals) (dbpath : CString) (found : Found) (names : List CString) : Prop where
  uripathlen : ¬ (BitVec.ofInt w.bits (pdu.getUriPath stack.uripath).2).toNat ≤ 4
  uripath : (pdu.getUriPath stack.uripath).1.strFrom 4 = some dbpath
  lookup : dbFindNodeByPath db fuel g dbpath stack.childNode stack.nameBuf = .ok found
  code : found.code = 0
  inner : dbNodeGetType db found.g found.node = .ok .inner
  children : ∃ g', ChildrenNamed db ⟨found.g, found.node, stack.child⟩ names g'
  enough : names.length < fuel

/-- The answer is the listing, or 5.00 where the listing does not fit the array or the packet. -/
def AnswersListing (w : FileWidth) (pdu : CoapPkt) (stack : CoapStack pdu) (fuel : Nat)
    (g : Globals) (names : List CString) : Prop :=
  ∃ g', dcaHandler db w pdu stack fuel g = .ok (g',
    if (listing names).length < dcaCoapStrbufSize ∧ (listing names).length ≤ pdu.payloadLen then
      .content (listing names).chars
    else .internalServerError)

end Statement

variable {db : Db}

/-! ## The length of a listing -/

theorem length_empty : (CString.lit "").length = 0 := rfl

theorem length_space : (CString.lit " ").length = 1 := rfl

theorem length_listing (names : List CString) :
    (listing names).length = (names.map (·.length + 1)).sum := by
  induction names with
  | nil => rfl
  | cons name names ih =>
    rw [listing, CString.length_append, CString.length_append, ih, length_space, List.map_cons,
      List.sum_cons]

/-! ## The loop -/

section Loop

variable {c₀ c : Cursor} {g' : Globals} {names : List CString} {name : CString}
  {val : Buf dcaCoapStrbufSize} {text : CString}

theorem ChildrenNamed.next (h : ChildrenNamed db c names g') :
    ∃ c', dbNodeGetNextChild db c = .ok c' := by
  cases h with
  | last hnext _ => exact ⟨_, hnext⟩
  | child hnext _ _ => exact ⟨_, hnext⟩

/-- The name of a child is read, whatever the array of the name held before. -/
theorem coapChildren_child (hchild : Offers db c name) (fuel : Nat) (junk : NameBuf)
    (val : Buf dcaCoapStrbufSize) :
    ∃ nameBuf, coapChildren db (fuel + 1) junk val c = (do
      let val ← inBounds (val.strncat name (dcaCoapStrbufSize - 1))
      let val ← inBounds (val.strncat (.lit " ") (dcaCoapStrbufSize - 1))
      coapChildren db fuel nameBuf val (← dbNodeGetNextChild db c)) := by
  obtain ⟨nameBuf, hname, hs⟩ := hchild.names junk
  refine ⟨nameBuf, ?_⟩
  simp only [coapChildren, hchild.notNull, ok_bind, Bool.false_eq_true, if_false, hname,
    hs.strlen_eq, hs.str_eq]
  rfl

theorem Offers.length_lt (hchild : Offers db c name) : name.length < dbNodeNameMax := by
  obtain ⟨b, -, hs⟩ := hchild.names (Buf.zero _)
  exact hs.length_lt

/-- **The loop appends the listing while there is room for it**, by induction on the children. -/
theorem coapChildren_eq (h : ChildrenNamed db c₀ names g') (hnext : dbNodeGetNextChild db c₀ = .ok c)
    (hval : val.Shows text) (hfits : text.length + (listing names).length < dcaCoapStrbufSize)
    {fuel : Nat} (hfuel : names.length < fuel) (junk : NameBuf) :
    ∃ val', coapChildren db fuel junk val c = .ok (g', val') ∧
      val'.Shows (text.append (listing names)) := by
  induction h generalizing c val text fuel junk with
  | @last c₀ c₁ hnext' hend =>
    obtain rfl := Except.ok.inj (hnext'.symm.trans hnext)
    obtain ⟨fuel, rfl⟩ : ∃ k, fuel = k + 1 := ⟨fuel - 1, by omega⟩
    refine ⟨val, ?_, ?_⟩
    · simp only [coapChildren, hend, ok_bind, if_true, pure_eq_ok]
    · rwa [listing, CString.append_empty]
  | @child c₀ c₁ g name names hnext' hchild hrest ih =>
    obtain rfl := Except.ok.inj (hnext'.symm.trans hnext)
    obtain ⟨fuel, rfl⟩ : ∃ k, fuel = k + 1 := ⟨fuel - 1, by omega⟩
    obtain ⟨nameBuf, hloop⟩ := coapChildren_child hchild fuel junk val
    have hshort := hchild.length_lt
    have hspace := length_space
    rw [listing, CString.length_append, CString.length_append, length_space] at hfits
    obtain ⟨val₁, hval₁, hs₁⟩ := hval.strncat_of_lt (t := name) (k := dcaCoapStrbufSize - 1)
      (Nat.le_trans (Nat.le_of_lt hshort) (by decide)) (by omega)
    obtain ⟨val₂, hval₂, hs₂⟩ := hs₁.strncat_of_lt (t := .lit " ") (k := dcaCoapStrbufSize - 1)
      (by decide) (by rw [CString.length_append]; omega)
    obtain ⟨c₂, hnext₂⟩ := hrest.next
    obtain ⟨val', hloop', hs'⟩ := ih hnext₂ hs₂
      (by rw [CString.length_append, CString.length_append, length_space]; omega)
      (Nat.lt_of_succ_lt_succ hfuel) nameBuf
    refine ⟨val', ?_, ?_⟩
    · simp only [hloop, hval₁, hval₂, inBounds, ok_bind, hnext₂, hloop']
    · rwa [CString.append_assoc, CString.append_assoc, ← CString.append_assoc name] at hs'

/-- **A longer listing leaves the array.** -/
theorem coapChildren_overflow (h : ChildrenNamed db c₀ names g')
    (hnext : dbNodeGetNextChild db c₀ = .ok c) (hval : val.Shows text)
    (hlong : dcaCoapStrbufSize ≤ text.length + (listing names).length) {fuel : Nat}
    (hfuel : names.length < fuel) (junk : NameBuf) :
    coapChildren db fuel junk val c = .error .bounds := by
  induction h generalizing c val text fuel junk with
  | @last c₀ c₁ hnext' hend =>
    rw [listing, length_empty] at hlong
    exact absurd hval.length_lt (Nat.not_lt.mpr hlong)
  | @child c₀ c₁ g name names hnext' hchild hrest ih =>
    obtain rfl := Except.ok.inj (hnext'.symm.trans hnext)
    obtain ⟨fuel, rfl⟩ : ∃ k, fuel = k + 1 := ⟨fuel - 1, by omega⟩
    obtain ⟨nameBuf, hloop⟩ := coapChildren_child hchild fuel junk val
    have hname : name.length ≤ dcaCoapStrbufSize - 1 :=
      Nat.le_trans (Nat.le_of_lt hchild.length_lt) (by decide)
    have hspace := length_space
    rw [listing, CString.length_append, CString.length_append, hspace] at hlong
    rw [hloop]
    -- the array is left at the name, at the space or behind them
    rcases Nat.lt_or_ge (text.length + name.length) dcaCoapStrbufSize with hlt | hge
    · obtain ⟨val₁, hval₁, hs₁⟩ := hval.strncat_of_lt hname hlt
      rw [hval₁]
      simp only [inBounds, ok_bind]
      rcases Nat.lt_or_ge ((text.append name).length + (CString.lit " ").length) dcaCoapStrbufSize
        with hlt' | hge'
      · obtain ⟨val₂, hval₂, hs₂⟩ := hs₁.strncat_of_lt (k := dcaCoapStrbufSize - 1) (by decide) hlt'
        obtain ⟨c₂, hnext₂⟩ := hrest.next
        have hrest' := ih hnext₂ hs₂
          (by rw [CString.length_append, CString.length_append, length_space]; omega)
          (Nat.lt_of_succ_lt_succ hfuel) nameBuf
        simp only [hval₂, ok_bind, hnext₂, hrest']
      · rw [hs₁.strncat_eq_none (by decide) hge']
        rfl
    · rw [hval.strncat_eq_none hname hge]
      rfl

end Loop

/-! ## The answer -/

section Answer

variable {w : FileWidth} {pdu : CoapPkt} {stack : CoapStack pdu} {fuel : Nat} {g : Globals}
  {dbpath : CString} {found : Found} {names : List CString}

/-- The handler begins with an empty string and comes to the loop. -/
theorem DirectoryRequest.handler_eq (h : DirectoryRequest db w pdu stack fuel g dbpath found names) :
    ∃ c val, dbNodeGetNextChild db ⟨found.g, found.node, stack.child⟩ = .ok c ∧
      val.Shows (.lit "") ∧ dcaHandler db w pdu stack fuel g = (do
        let (g, val) ← coapChildren db fuel stack.name val c
        return (g, ← coapContent pdu val (← inBounds val.strlen))) := by
  obtain ⟨g', hchildren⟩ := h.children
  obtain ⟨c, hnext⟩ := hchildren.next
  obtain ⟨val, hval, hs⟩ := Buf.shows_set (b := stack.val) (s := .lit "") List.nil_prefix (by decide)
  have hval' : stack.val.set 0 nul = some val := hval
  have hcode : ¬ found.code < 0 := by
    rw [h.code]
    decide
  refine ⟨c, val, hnext, hs, ?_⟩
  simp only [dcaHandler, if_neg h.uripathlen, h.uripath, h.lookup, if_neg hcode, hval', h.inner,
    hnext, inBounds, ok_bind]

/-- The end of the handler, for a part of the array. -/
theorem coapContent_of_le {val : Buf dcaCoapStrbufSize} {vallen : Nat}
    (hle : vallen ≤ dcaCoapStrbufSize) :
    coapContent pdu val vallen = .ok (if vallen ≤ pdu.payloadLen then
      .content (val.chars.take vallen) else .internalServerError) := by
  unfold coapContent
  have hcpy : val.memcpyFrom 0 vallen = some (val.chars.take vallen) := by
    rw [Buf.memcpyFrom, if_pos (by omega), List.drop_zero]
  split_ifs
  · rw [hcpy]
    rfl
  · rfl

/-- A listing that fits the array is the payload, if the packet has room for it. -/
theorem coapContent_listing {val : Buf dcaCoapStrbufSize} {text : CString} (hs : val.Shows text) :
    coapContent pdu val text.length = .ok (if text.length < dcaCoapStrbufSize ∧
      text.length ≤ pdu.payloadLen then .content text.chars else .internalServerError) := by
  have htake : val.chars.take text.length = text.chars :=
    (List.prefix_iff_eq_take.mp hs.begins).symm
  rw [coapContent_of_le (Nat.le_of_lt hs.length_lt), htake]
  simp only [hs.length_lt, true_and]

/-- **A listing that fits the array is the answer**, or 5.00 where the packet is too small for it. -/
theorem DirectoryRequest.answers (h : DirectoryRequest db w pdu stack fuel g dbpath found names)
    (hfits : (listing names).length < dcaCoapStrbufSize) :
    AnswersListing db w pdu stack fuel g names := by
  obtain ⟨g', hchildren⟩ := h.children
  obtain ⟨c, val, hnext, hs, hhandler⟩ := h.handler_eq
  have hempty := length_empty
  obtain ⟨val', hloop, hs'⟩ := coapChildren_eq hchildren hnext hs (by omega) h.enough stack.name
  have hnothing : (CString.lit "").append (listing names) = listing names := rfl
  rw [hnothing] at hs'
  refine ⟨g', ?_⟩
  rw [hhandler, hloop]
  simp only [ok_bind, hs'.strlen_eq, inBounds, coapContent_listing hs', pure_eq_ok]

/-- **A listing that does not fit the array leaves it.** -/
theorem DirectoryRequest.overflow (h : DirectoryRequest db w pdu stack fuel g dbpath found names)
    (hlong : dcaCoapStrbufSize ≤ (listing names).length) :
    dcaHandler db w pdu stack fuel g = .error .bounds := by
  obtain ⟨g', hchildren⟩ := h.children
  obtain ⟨c, val, hnext, hs, hhandler⟩ := h.handler_eq
  have hempty := length_empty
  rw [hhandler, coapChildren_overflow hchildren hnext hs (by omega) h.enough]
  rfl

end Answer

/-! ## Directories -/

/-- The names of children that are enumerated in all surroundings. -/
theorem childrenNamed_of_supplies {ι : Type} {node : DbNode} {item : ι → DbNode}
    {name : ι → CString} {is : List ι}
    (h : Supplies (takeChild db) (fun _ => True) .null node (is.map item))
    (hoffers : ∀ i ∈ is, ∀ g node, Offers db ⟨g, node, item i⟩ (name i)) (g : Globals)
    (child : DbNode) : ∃ g', ChildrenNamed db ⟨g, node, child⟩ (is.map name) g' := by
  induction is generalizing node g child with
  | nil =>
    cases h with
    | nil hnext =>
      obtain ⟨c, hc, hout⟩ := bind_eq_ok.mp (hnext (g, child) trivial)
      obtain ⟨-, hnull⟩ := Prod.mk.inj (Except.ok.inj hout)
      exact ⟨c.g, .last hc (by rw [hnull]; rfl)⟩
  | cons i is ih =>
    obtain ⟨hi, his⟩ := List.forall_mem_cons.mp hoffers
    cases h with
    | cons hnext hrest =>
      obtain ⟨c, hc, hout⟩ := bind_eq_ok.mp (hnext (g, child) trivial)
      obtain ⟨hnode, hchild⟩ := Prod.mk.inj (Except.ok.inj hout)
      rw [← hnode] at hrest
      obtain ⟨g', hnamed⟩ := ih hrest his c.g c.child
      have hoffer : Offers db c (name i) := by
        have hat := hi c.g c.node
        rwa [← hchild] at hat
      exact ⟨g', .child hc hoffer hnamed⟩

theorem childrenNamed_devices
    (hshort : ∀ i ∈ List.range' 0 db.env.saulReg.length,
      (db.env.deviceName i).length < dbNodeNameMax) (g : Globals) (child : DbNode) :
    ∃ g', ChildrenNamed db ⟨g, dbNewSaulNode db.env, child⟩
      ((List.range' 0 db.env.saulReg.length).map db.env.deviceName) g' := by
  refine childrenNamed_of_supplies (supplies_devices _ (Nat.zero_add _)) ?_ g child
  intro i hi g node
  exact offers_device (by simpa using hi) (hshort i hi) g node

theorem childrenNamed_processes (hfirst : db.env.FirstThread)
    (hshort : ∀ pid ∈ db.env.pidsFrom kernelPidFirst,
      (db.env.threadName pid).length < dbNodeNameMax) (g : Globals) (child : DbNode) :
    ∃ g', ChildrenNamed db ⟨g, dbNewPsNode, child⟩
      ((db.env.pidsFrom kernelPidFirst).map db.env.threadName) g' := by
  have hend : db.env.kernelPidLast < kernelPidFirst + db.env.kernelPidLast :=
    Nat.lt_add_of_pos_left (by decide)
  refine childrenNamed_of_supplies (supplies_processes _ (Or.inl hfirst) hend) ?_ g child
  intro pid hpid g node
  have hlive := mem_pidsFrom.mp hpid
  exact offers_process hlive (hshort pid hpid) g node

variable (db) in
/-- In every reachable state all requests for an inner node are answered with its listing. -/
def ListingsAnswered : Prop :=
  ∀ (w : FileWidth) (pdu : CoapPkt) (stack : CoapStack pdu) (fuel : Nat) (g : Globals)
    (dbpath : CString) (found : Found) (names : List CString), Reachable db.dbIndex g →
    DirectoryRequest db w pdu stack fuel g dbpath found names →
    AnswersListing db w pdu stack fuel g names

/-- Variables that hold nothing. -/
def emptyCoapStack (pdu : CoapPkt) : CoapStack pdu :=
  ⟨Buf.zero _, .null, Buf.zero _, Buf.zero _, .null, Buf.zero _⟩

/-- A board with 16 lights. -/
def lightsEnv : Env := { smallEnv with saulReg := List.replicate 16 ⟨.lit "LED(red)", 0x42⟩ }

/-- The listing of 16 devices with names of 8 characters has 144. -/
theorem not_listingsAnswered : ¬ ListingsAnswered (.ofEnv {} lightsEnv) := by
  intro h
  have hshort : ∀ i ∈ List.range' 0 (Db.ofEnv {} lightsEnv).env.saulReg.length,
      ((Db.ofEnv {} lightsEnv).env.deviceName i).length < dbNodeNameMax := by decide
  have hrequest : DirectoryRequest (.ofEnv {} lightsEnv) ⟨32, by decide⟩
      (.get 64 (.lit "/dca/saul/devices") 512) (emptyCoapStack _) 20 {} (.lit "/saul/devices")
      ⟨{}, 0, dbNewSaulNode lightsEnv⟩ _ :=
    ⟨by decide, by decide +kernel, by decide +kernel, rfl, rfl,
      childrenNamed_devices hshort {} .null, by decide⟩
  have hreach : Reachable (Db.ofEnv {} lightsEnv).dbIndex {} :=
    ⟨lightsEnv, .boot lightsEnv, .refl _, rfl⟩
  obtain ⟨g', hanswer⟩ := h _ _ _ _ _ _ _ _ hreach hrequest
  rw [hrequest.overflow (by rw [length_listing]; decide)] at hanswer
  cases hanswer

/--
**The answer is as promised exactly for the listings that fit the array.** The handler does not
refuse a longer listing but leaves the array.
-/
theorem answersListing_iff {w : FileWidth} {pdu : CoapPkt} {stack : CoapStack pdu} {fuel : Nat}
    {g : Globals} {dbpath : CString} {found : Found} {names : List CString}
    (h : DirectoryRequest db w pdu stack fuel g dbpath found names) :
    AnswersListing db w pdu stack fuel g names
      ↔ (names.map (·.length + 1)).sum < dcaCoapStrbufSize := by
  rw [← length_listing]
  constructor
  · rintro ⟨g'', hanswer⟩
    by_contra hlong
    rw [h.overflow (Nat.le_of_not_lt hlong)] at hanswer
    cases hanswer
  · exact h.answers

/-- `/dca/runtime/ps` on the small board. -/
theorem answersListing_small :
    AnswersListing smallDb ⟨32, by decide⟩ (.get 64 (.lit "/dca/runtime/ps") 64)
        (emptyCoapStack _) 8 {} [.lit "idle", .lit "main"]
      ↔ ([CString.lit "idle", .lit "main"].map (·.length + 1)).sum < dcaCoapStrbufSize := by
  have hfirst : smallDb.env.FirstThread := by
    unfold Env.FirstThread Env.Live
    decide
  have hrequest : DirectoryRequest smallDb ⟨32, by decide⟩ (.get 64 (.lit "/dca/runtime/ps") 64)
      (emptyCoapStack _) 8 {} (.lit "/runtime/ps") ⟨{}, 0, dbNewPsNode⟩ [.lit "idle", .lit "main"] :=
    ⟨by decide, by decide +kernel, by decide +kernel, rfl, rfl,
      childrenNamed_processes hfirst (by decide) {} .null, by decide⟩
  exact answersListing_iff hrequest

end Dca
