import Dca.Db.Types
import Dca.Lib.Keyed

/-!
# The neighbour list as a list

The functions of `linked_list.c` on the list that its links represent, first entry first.
`Dca/Neighbour/LinkedList.lean` has the functions on the links themselves and shows that they
compute these.
-/

namespace Dca

open CLib

/-- `ptr = ptr->next`, `k` times. -/
def stepLinks : Nat → List NeighborEntryl → Res (List NeighborEntryl)
  | 0, l => .ok l
  | _ + 1, [] => .error .null
  | k + 1, _ :: l => stepLinks k l

/-- `linked_list_read_ip`, with what it leaves in `addr_str` and its return value. -/
def readIp {n : Nat} (env : Env) (l : List NeighborEntryl) (numNeighbours : UInt8)
    (addrStr : Buf n) : Res (Buf n × Nat) := do
  if l = [] then return (addrStr, 1)
  match ← stepLinks (numNeighbours.toNat - 1) l with
  | e :: _ => return (← inBounds (addrStr.strcpy (env.ipv6AddrToStr e.addr)), 0)
  | [] => return (addrStr, 1)

/-- The field of an entry that `linked_list_read` selects. -/
def NeighborEntryl.subField (e : NeighborEntryl) (subfieldCount : UInt8) : UInt32 :=
  if subfieldCount = 2 then e.latency
  else if subfieldCount = 3 then e.packetLoss
  else if subfieldCount = 4 then e.throughput
  else 1

/-- `linked_list_read` -/
def readSubField (l : List NeighborEntryl) (subfieldCount numNeighbours : UInt8) : Res UInt32 := do
  if l = [] then return 1
  match ← stepLinks (numNeighbours.toNat - 1) l with
  | e :: _ => return e.subField subfieldCount
  | [] => return 1

/-! ## The entry at a number -/

theorem stepLinks_of_le {k : Nat} {l : List NeighborEntryl} (h : k ≤ l.length) :
    stepLinks k l = .ok (l.drop k) := by
  induction l generalizing k with
  | nil =>
    obtain rfl : k = 0 := by simpa using h
    rfl
  | cons e l ih =>
    cases k with
    | zero => rfl
    | succ k => exact ih (by simpa using h)

theorem stepLinks_of_lt {k : Nat} {l : List NeighborEntryl} (h : l.length < k) :
    stepLinks k l = .error .null := by
  induction l generalizing k with
  | nil =>
    cases k with
    | zero => simp at h
    | succ k => rfl
  | cons e l ih =>
    cases k with
    | zero => simp at h
    | succ k => exact ih (by simpa using h)

/-- The entry that a number stands for. 0 stands for the first entry, as 1 does. -/
def entryAt (l : List NeighborEntryl) (numNeighbours : UInt8) : Option NeighborEntryl :=
  l[numNeighbours.toNat - 1]?

theorem drop_of_entryAt {l : List NeighborEntryl} {num : UInt8} {e : NeighborEntryl}
    (h : entryAt l num = some e) :
    ∃ rest, stepLinks (num.toNat - 1) l = .ok (e :: rest) := by
  obtain ⟨hlt, he⟩ := List.getElem?_eq_some_iff.mp h
  refine ⟨l.drop (num.toNat - 1 + 1), ?_⟩
  rw [stepLinks_of_le (Nat.le_of_lt hlt), List.drop_eq_getElem_cons hlt, he]

theorem readIp_eq {n : Nat} (env : Env) {l : List NeighborEntryl} {num : UInt8}
    {e : NeighborEntryl} (h : entryAt l num = some e) (addrStr : Buf n) :
    readIp env l num addrStr
      = (·, 0) <$> inBounds (addrStr.strcpy (env.ipv6AddrToStr e.addr)) := by
  have hne : l ≠ [] := by
    rintro rfl
    cases h
  obtain ⟨rest, hrest⟩ := drop_of_entryAt h
  rw [readIp, if_neg hne, hrest, ok_bind]
  dsimp only
  cases inBounds (addrStr.strcpy (env.ipv6AddrToStr e.addr)) <;> rfl

theorem readSubField_eq {l : List NeighborEntryl} {num : UInt8} {e : NeighborEntryl}
    (h : entryAt l num = some e) (sub : UInt8) : readSubField l sub num = .ok (e.subField sub) := by
  have hne : l ≠ [] := by
    rintro rfl
    cases h
  obtain ⟨rest, hrest⟩ := drop_of_entryAt h
  rw [readSubField, if_neg hne, hrest, ok_bind]
  rfl

/-- Without an entry every array is left alone, or the links end before the number. -/
theorem readIp_none (env : Env) {l : List NeighborEntryl} {num : UInt8}
    (h : entryAt l num = none) :
    (∀ (n : Nat) (addrStr : Buf n), readIp env l num addrStr = .ok (addrStr, 1)) ∨
      ∀ (n : Nat) (addrStr : Buf n), readIp env l num addrStr = .error .null := by
  by_cases hnil : l = []
  · left
    intro n addrStr
    rw [readIp, if_pos hnil]
    rfl
  · have hle : l.length ≤ num.toNat - 1 := List.getElem?_eq_none_iff.mp h
    rcases Nat.eq_or_lt_of_le hle with heq | hlt
    · left
      intro n addrStr
      rw [readIp, if_neg hnil, stepLinks_of_le (by omega), List.drop_eq_nil_of_le (by omega)]
      rfl
    · right
      intro n addrStr
      rw [readIp, if_neg hnil, stepLinks_of_lt hlt]
      rfl

/-- `linked_list_node_exists(ip) == 0` -/
def hasAddr (l : List NeighborEntryl) (ip : Ipv6Addr) : Bool := l.any (·.addr = ip)

/-- `linked_list_insert_node` -/
def insertEntry (l : List NeighborEntryl) (node : NeighborEntryl) : List NeighborEntryl := node :: l

/-- What `linked_list_update_latency` writes into an entry. -/
def NeighborEntryl.setLatency (node e : NeighborEntryl) : NeighborEntryl :=
  { e with latency := node.latency, packetLoss := node.packetLoss }

/-- What `linked_list_update_throughput` writes into an entry. -/
def NeighborEntryl.setThroughput (node e : NeighborEntryl) : NeighborEntryl :=
  { e with throughput := node.throughput }

/-- `linked_list_update_latency` -/
def updateLatency (node : NeighborEntryl) (l : List NeighborEntryl) : List NeighborEntryl :=
  updateKey NeighborEntryl.addr node.setLatency node.addr l

/-- `linked_list_update_throughput` -/
def updateThroughput (node : NeighborEntryl) (l : List NeighborEntryl) : List NeighborEntryl :=
  updateKey NeighborEntryl.addr node.setThroughput node.addr l

/-- `_netif_node_add_list` -/
def netifNodeAddList (l : List NeighborEntryl) (ip : Ipv6Addr) : List NeighborEntryl :=
  if hasAddr l ip then l
  else insertEntry l { addr := ip, latency := 0, packetLoss := 0, throughput := 0 }

/-- The end of `_finish`, with the record that it has filled in. -/
def finishStore (l : List NeighborEntryl) (node : NeighborEntryl) : List NeighborEntryl :=
  if hasAddr l node.addr then updateLatency node l else insertEntry l node

/-- The end of a round of `db_measure_network_throughput`, with its record. -/
def throughputStore (l : List NeighborEntryl) (node : NeighborEntryl) : List NeighborEntryl :=
  if hasAddr l node.addr then updateThroughput node l else insertEntry l node

end Dca
