import Dca.Db.Listing

/-!
# Requests over CoAP

The handler stores the length of the path in an unsigned variable, where an error is a large number.
A path that is too long passes the check of the length, and the handler looks up what stands in the
array from before.
-/

namespace Dca

open CLib

/-! ## The statement -/

/--
What `coap_get_uri_path` does with a path: the whole of it is in the array, and the length with the
terminator is returned, or it has no room and there is an error, with a part of the path in the array.
The value returned is an `ssize_t`.
-/
structure Extracts (w : FileWidth) (pdu : CoapPkt) (path : CString) : Prop where
  ssize : ∀ b, -2 ^ (w.bits - 1) ≤ (pdu.getUriPath b).2 ∧ (pdu.getUriPath b).2 < 2 ^ (w.bits - 1)
  fits : path.length < pdu.uriMax → ∀ b,
    (pdu.getUriPath b).2 = path.length + 1 ∧ (pdu.getUriPath b).1.Shows path
  tooLong : pdu.uriMax ≤ path.length → ∀ b,
    (pdu.getUriPath b).2 < 0 ∧
      ∃ k, (pdu.getUriPath b).1.chars = path.chars.take k ++ b.chars.drop k

/-- The requests that `_resources` gives to the handler: `/dca` with `COAP_MATCH_SUBTREE`. -/
def Routed (path : CString) : Prop := (CString.lit "/dca").chars <+: path.chars

instance (path : CString) : Decidable (Routed path) := by
  unfold Routed
  infer_instance

theorem Routed.length_ge {path : CString} (h : Routed path) : 4 ≤ path.length := h.length_le

section Statement

variable (db : Db)

end Statement

variable {db : Db} {w : FileWidth} {pdu : CoapPkt} {path : CString}

/-! ## The path in the array -/

namespace Extracts

/-- The length of a path that fits. -/
theorem uripathlen_of_fits (h : Extracts w pdu path) (hfits : path.length < pdu.uriMax)
    (b : Buf pdu.uriMax) :
    (BitVec.ofInt w.bits (pdu.getUriPath b).2).toNat = path.length + 1 := by
  have hlt := (h.ssize b).2
  rw [(h.fits hfits b).1] at hlt ⊢
  have hlt' : path.length + 1 < 2 ^ (w.bits - 1) := by exact_mod_cast hlt
  have hpow : 2 ^ (w.bits - 1) ≤ 2 ^ w.bits := Nat.pow_le_pow_right (by decide) (by omega)
  exact Nat.mod_eq_of_lt (Nat.lt_of_lt_of_le hlt' hpow)

theorem long_of_fits (h : Extracts w pdu path) (hfits : path.length < pdu.uriMax)
    (hrouted : Routed path) (b : Buf pdu.uriMax) :
    ¬ (BitVec.ofInt w.bits (pdu.getUriPath b).2).toNat ≤ 4 := by
  rw [h.uripathlen_of_fits hfits]
  have hlen := hrouted.length_ge
  omega

theorem uripath_of_fits (h : Extracts w pdu path) (hfits : path.length < pdu.uriMax)
    (hrouted : Routed path) (b : Buf pdu.uriMax) :
    (pdu.getUriPath b).1.strFrom 4 = some (path.drop 4) :=
  (h.fits hfits b).2.strFrom hrouted.length_ge

end Extracts

section Documented

variable {uriMax payloadLen : Nat} {b b' : Buf uriMax}

theorem getUriPath_of_some (hcpy : b.strcpy path = some b') :
    (CoapPkt.get uriMax path payloadLen).getUriPath b = (b', (path.length : Int) + 1) := by
  simp only [CoapPkt.get, hcpy]

theorem getUriPath_of_none (hcpy : b.strcpy path = none) :
    (CoapPkt.get uriMax path payloadLen).getUriPath b = (b, enospc) := by
  simp only [CoapPkt.get, hcpy]

/-- `coap_get_uri_path` as it is documented. -/
theorem extracts_get (hlen : path.length + 1 < 2 ^ (w.bits - 1)) :
    Extracts w (.get uriMax path payloadLen) path := by
  refine ⟨fun (b : Buf uriMax) => ?_, fun hfits (b : Buf uriMax) => ?_,
    fun hlong (b : Buf uriMax) => ?_⟩
  · have hbits := w.promised
    obtain ⟨m, hm⟩ : ∃ m : Nat, m = 2 ^ (w.bits - 1) := ⟨_, rfl⟩
    have hlarge : 2 ^ 15 ≤ m := hm ▸ Nat.pow_le_pow_right (by decide) (by omega)
    have hm' : (2 : Int) ^ (w.bits - 1) = m := by
      rw [hm]
      exact_mod_cast rfl
    rw [← hm] at hlen
    rw [hm']
    cases hcpy : b.strcpy path with
    | some b' =>
      rw [getUriPath_of_some hcpy]
      dsimp only
      omega
    | none =>
      rw [getUriPath_of_none hcpy]
      simp only [enospc]
      omega
  · obtain ⟨b', hcpy, hs⟩ := b.strcpy_of_lt hfits
    rw [getUriPath_of_some hcpy]
    exact ⟨rfl, hs⟩
  · rw [getUriPath_of_none (b.strcpy_eq_none hlong)]
    refine ⟨?_, 0, rfl⟩
    show enospc < 0
    decide

end Documented

/-! ## The responses -/

section Fits

variable {g : Globals} {stack : CoapStack pdu} {found : Found} {payload : List Char}

theorem size_of_terminate {n size : Nat} {b b' : Buf n} {r : Int}
    (h : terminate b size = .ok (b', r)) : r ≤ n := by
  unfold terminate Buf.set at h
  split_ifs at h with hlt
  · obtain ⟨-, hr⟩ := Prod.mk.inj (Except.ok.inj h)
    omega
  · cases h

/-- The number of bytes that `db_node_value_to_str` reports is at most the size of the array. -/
theorem size_of_valueToStr {n : Nat} {node : DbNode} {b b' : Buf n} {g' : Globals} {r : Int}
    (h : dbNodeValueToStr db g node b = .ok (g', b', r)) : r ≤ n := by
  unfold dbNodeValueToStr at h
  obtain ⟨-, -, h⟩ := bind_eq_ok.mp h
  obtain ⟨type, -, h⟩ := bind_eq_ok.mp h
  cases type with
  | int =>
    obtain ⟨⟨g₁, v⟩, -, h⟩ := bind_eq_ok.mp h
    obtain ⟨⟨b₁, size⟩, -, h⟩ := bind_eq_ok.mp h
    obtain ⟨⟨b₂, r₂⟩, ht, h⟩ := bind_eq_ok.mp h
    obtain ⟨-, -, rfl⟩ : g₁ = g' ∧ b₂ = b' ∧ r₂ = r := by simpa using h
    exact size_of_terminate ht
  | float =>
    obtain ⟨v, -, h⟩ := bind_eq_ok.mp h
    obtain ⟨⟨b₁, size⟩, -, h⟩ := bind_eq_ok.mp h
    obtain ⟨⟨b₂, r₂⟩, ht, h⟩ := bind_eq_ok.mp h
    obtain ⟨-, -, rfl⟩ : g = g' ∧ b₂ = b' ∧ r₂ = r := by simpa using h
    exact size_of_terminate ht
  | str =>
    obtain ⟨⟨b₁, size⟩, -, h⟩ := bind_eq_ok.mp h
    obtain ⟨⟨b₂, r₂⟩, ht, h⟩ := bind_eq_ok.mp h
    obtain ⟨-, -, rfl⟩ : g = g' ∧ b₂ = b' ∧ r₂ = r := by simpa using h
    exact size_of_terminate ht
  | null | inner =>
    obtain ⟨-, -, rfl⟩ : g = g' ∧ b = b' ∧ efault = r := by simpa using h
    exact Int.le_trans (by decide) (Int.natCast_nonneg n)

/-- The content, or 5.00 where the packet has no room for it. -/
def contentOr500 (pdu : CoapPkt) (payload : List Char) : CoapResponse :=
  if payload.length ≤ pdu.payloadLen then .content payload else .internalServerError

variable (h : Extracts w pdu path) (hrouted : Routed path) (hfits : path.length < pdu.uriMax)
include h hrouted hfits

end Fits

/-! ## The answers -/

variable {g : Globals}

end Dca
