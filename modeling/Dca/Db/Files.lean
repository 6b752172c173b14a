import Dca.Db.Decimal
import Dca.Db.Fs
import Dca.Lib.Chunks

/-!
# Sessions with an open file

Where the value of a leaf stays the same, its file is a text with a position. Reads give parts of
the text and seeks move the position, and the two formatters of a value agree about the text.
-/

namespace Dca

open CLib

/-! ## Words -/

section Words

variable {w : FileWidth}

theorem FileWidth.large (w : FileWidth) : 2 ^ 16 ≤ 2 ^ w.bits :=
  Nat.pow_le_pow_right (by decide) w.promised

theorem toNat_size {n : Nat} (h : n ≤ dcafsMaxStrLen) : (BitVec.ofNat w.bits n).toNat = n := by
  have hlarge := w.large
  have hmax : n ≤ 128 := h
  rw [BitVec.toNat_ofNat]
  exact Nat.mod_eq_of_lt (by omega)

theorem start_nonneg : 0 ≤ (0#w.bits).toInt := Int.le_of_eq BitVec.toInt_zero.symm

theorem toInt_of_small {x : w.Word} (h : x.toNat ≤ dcafsMaxStrLen) : x.toInt = x.toNat := by
  have hlarge := w.large
  have hmax : x.toNat ≤ 128 := h
  exact BitVec.toInt_eq_toNat_of_lt (by omega)

/-- `nbytes`, but not more than there is behind the position. -/
theorem toNat_clip {size pos nbytes : w.Word} (h : ¬ size ≤ pos) :
    (if size - pos < nbytes then size - pos else nbytes).toNat
      = min nbytes.toNat (size.toNat - pos.toNat) := by
  rw [BitVec.le_def, Nat.not_le] at h
  have hleft : (size - pos).toNat = size.toNat - pos.toNat :=
    BitVec.toNat_sub_of_le (BitVec.le_def.mpr (Nat.le_of_lt h))
  split_ifs with hmore
  · rw [BitVec.lt_def, hleft] at hmore
    omega
  · rw [BitVec.lt_def, hleft] at hmore
    omega

end Words

theorem einval_neg : einval < 0 := by decide

/-! ## A read -/

section Read

variable {db : Db} {w : FileWidth} {g g' : Globals} {filp : VfsFile w}
  {data b : Buf dcafsMaxStrLen} {size : Nat}

/-- **What a read gives is a part of the text that has been formatted.** -/
theorem dcafsRead_eq (hvalue : dcafsReadValue db g filp.node data = .ok (g', some (b, size)))
    (hsize : size ≤ dcafsMaxStrLen) (hpos : 0 ≤ filp.pos.toInt) (nbytes : w.Word) :
    ∃ pos', dcafsRead db g filp data nbytes = .ok (g', { filp with pos := pos' },
        (chunk (b.chars.take size) filp.pos.toNat nbytes.toNat).length,
        chunk (b.chars.take size) filp.pos.toNat nbytes.toNat) ∧
      0 ≤ pos'.toInt ∧ pos'.toNat
        = filp.pos.toNat + (chunk (b.chars.take size) filp.pos.toNat nbytes.toNat).length := by
  have hlen : (b.chars.take size).length = size := by
    rw [List.length_take, b.size]
    exact Nat.min_eq_left hsize
  have hsize' : (BitVec.ofNat w.bits size).toNat = size := toNat_size hsize
  by_cases hend : size ≤ filp.pos.toNat
  · -- at the end, or behind it
    have hle : BitVec.ofNat w.bits size ≤ filp.pos := by
      rw [BitVec.le_def, hsize']
      exact hend
    have hnil : chunk (b.chars.take size) filp.pos.toNat nbytes.toNat = [] :=
      chunk_of_le (by omega) _
    rw [hnil]
    refine ⟨filp.pos, ?_, hpos, rfl⟩
    simp only [dcafsRead, hvalue, ok_bind, if_pos hle]
    rfl
  · have hlt : ¬ BitVec.ofNat w.bits size ≤ filp.pos := by
      rw [BitVec.le_def, hsize']
      exact hend
    have hmax : size ≤ 128 := hsize
    -- the number of bytes that are copied
    let count : w.Word := if BitVec.ofNat w.bits size - filp.pos < nbytes then
      BitVec.ofNat w.bits size - filp.pos else nbytes
    have hcount : count.toNat = min nbytes.toNat (size - filp.pos.toNat) :=
      (toNat_clip hlt).trans (by rw [hsize'])
    have hload : b.memcpyFrom filp.pos.toNat count.toNat
        = some (chunk (b.chars.take size) filp.pos.toNat nbytes.toNat) := by
      have hinside : filp.pos.toNat + count.toNat ≤ dcafsMaxStrLen := by omega
      rw [Buf.memcpyFrom, if_pos hinside, hcount, chunk, List.drop_take, List.take_take]
    have hlarge := w.large
    have hpos' : (filp.pos + count).toNat = filp.pos.toNat + count.toNat :=
      BitVec.toNat_add_of_lt (by omega)
    have hsmall : (filp.pos + count).toNat ≤ 128 := by omega
    have hret : count.toInt = (chunk (b.chars.take size) filp.pos.toNat nbytes.toNat).length := by
      rw [toInt_of_small (show count.toNat ≤ 128 by omega), length_chunk, hlen, hcount]
    refine ⟨filp.pos + count, ?_, ?_, ?_⟩
    · simp only [dcafsRead, hvalue, ok_bind, if_neg hlt]
      show (do
        let dest ← inBounds (b.memcpyFrom filp.pos.toNat count.toNat)
        return (g', { filp with pos := filp.pos + count }, count.toInt, dest)) = _
      rw [hload, hret]
      rfl
    · rw [toInt_of_small hsmall]
      omega
    · rw [hpos', length_chunk, hlen, hcount]

end Read

/-! ## Sessions -/

/-- A call on an open file. `data` is what the local array of a read holds at first. -/
inductive FileCall (w : FileWidth) where
  | read (nbytes : w.Word) (data : Buf dcafsMaxStrLen)
  | lseek (off : w.Word) (whence : Whence)

/-- The shared variables and an open file. -/
structure FileState (w : FileWidth) where
  g : Globals
  filp : VfsFile w

/-- What a call returns, and what it writes to the memory of the caller. -/
structure FileReply where
  ret : Int
  dest : List Char

variable (db : Db) {w : FileWidth}

def FileState.call (s : FileState w) : FileCall w → Res (FileState w × FileReply)
  | .read nbytes data => do
    let (g, filp, ret, dest) ← dcafsRead db s.g s.filp data nbytes
    return (⟨g, filp⟩, ⟨ret, dest⟩)
  | .lseek off whence => do
    let (filp, ret) ← dcafsLseek db s.g s.filp off whence
    return ({ s with filp }, ⟨ret, []⟩)

/--
What a call does to a file with the text. A read gives the part from the position on and moves the
position behind it, and a seek that fails leaves the position where it is.
-/
def FileCall.Serves (text : List Char) (filp filp' : VfsFile w) (reply : FileReply) :
    FileCall w → Prop
  | .read nbytes _ =>
    reply.dest = chunk text filp.pos.toNat nbytes.toNat ∧ reply.ret = reply.dest.length ∧
      filp'.pos.toNat = filp.pos.toNat + reply.dest.length
  | .lseek _ _ => if reply.ret < 0 then filp'.pos = filp.pos else filp'.pos.toInt = reply.ret

/-- The calls of a session serve the text, and the position is never negative. -/
def ServesText (text : List Char) : FileState w → List (FileCall w) → Prop
  | s, [] => 0 ≤ s.filp.pos.toInt
  | s, call :: calls =>
    0 ≤ s.filp.pos.toInt ∧ ∃ s' reply, s.call db call = .ok (s', reply) ∧
      call.Serves text s.filp s'.filp reply ∧ ServesText text s' calls

/-- Reads of the given lengths, and what they give. -/
def FileState.readEach : FileState w → List (w.Word × Buf dcafsMaxStrLen) →
    Res (FileState w × List (List Char))
  | s, [] => .ok (s, [])
  | s, (nbytes, data) :: reads => do
    let (s, reply) ← s.call db (.read nbytes data)
    let (s, rest) ← s.readEach reads
    return (s, reply.dest :: rest)

/--
The text of a static leaf. The value of a number is an `int32_t`, and the getter of a text writes
the text into every array that has room for it and returns its length.
-/
inductive LeafText (flIdx subIdx : UInt8) : CString → Prop where
  | int {e : DbFlEntry} {s : DbFlStaticEntry} {f : Env → Int}
      (he : db.dbIndex[flIdx.toNat]? = some e) (hs : e.staticEntries[subIdx.toNat]? = some s)
      (htype : s.type = .int) (hf : s.getValueFn = .int f) (hv : IsInt32 (f db.env)) :
      LeafText flIdx subIdx (fmtS32Dec (f db.env))
  | str {e : DbFlEntry} {s : DbFlStaticEntry} {f : Env → (n : Nat) → Buf n → Nat → Res (Buf n × Nat)}
      {text : CString} (he : db.dbIndex[flIdx.toNat]? = some e)
      (hs : e.staticEntries[subIdx.toNat]? = some s) (htype : s.type = .str)
      (hf : s.getValueFn = .str f) (hlen : text.length < 127)
      (hget : ∀ (n : Nat) (buf : Buf n) (bufsize : Nat), text.length < bufsize → bufsize ≤ n →
        ∃ b, f db.env n buf bufsize = .ok (b, text.length) ∧ text.chars <+: b.chars) :
      LeafText flIdx subIdx text

variable {db} {flIdx subIdx : UInt8} {text : CString}

/-- A call of `dcafs_read` where the value has a text. -/
theorem call_of_value {s : FileState w} {g' : Globals} {data b : Buf dcafsMaxStrLen} {size : Nat}
    (hvalue : dcafsReadValue db s.g s.filp.node data = .ok (g', some (b, size)))
    (hfits : size ≤ dcafsMaxStrLen) (hpos : 0 ≤ s.filp.pos.toInt) (nbytes : w.Word) :
    ∃ s' : FileState w, s.call db (.read nbytes data) = .ok (s',
        ⟨(chunk (b.chars.take size) s.filp.pos.toNat nbytes.toNat).length,
          chunk (b.chars.take size) s.filp.pos.toNat nbytes.toNat⟩) ∧
      s'.g = g' ∧ s'.filp.node = s.filp.node ∧ 0 ≤ s'.filp.pos.toInt ∧ s'.filp.pos.toNat
        = s.filp.pos.toNat + (chunk (b.chars.take size) s.filp.pos.toNat nbytes.toNat).length := by
  obtain ⟨pos', hread, hpos', hmoved⟩ := dcafsRead_eq hvalue hfits hpos nbytes
  refine ⟨⟨g', { s.filp with pos := pos' }⟩, ?_, rfl, rfl, hpos', hmoved⟩
  simp only [FileState.call, hread, ok_bind, pure_eq_ok]

namespace LeafText

variable (h : LeafText db flIdx subIdx text)
include h

theorem length_lt : text.length < 127 := by
  cases h with
  | int _ _ _ _ hv =>
    have := length_of_isInt32 hv
    omega
  | str _ _ _ _ hlen _ => exact hlen

/-- **Both formatters give the text.** This is the one of a read. -/
theorem readValue (g : Globals) (data : Buf dcafsMaxStrLen) :
    ∃ b, dcafsReadValue db g (.fl flIdx subIdx false) data = .ok (g, some (b, text.length)) ∧
      b.chars.take text.length = text.chars := by
  have hlt : text.length < 127 := h.length_lt
  cases h with
  | @int e s f he hs htype hf hv =>
    have hle : (fmtS32Dec (f db.env)).chars.length ≤ dcafsMaxStrLen :=
      Nat.le_trans (Nat.le_of_lt hlt) (by decide)
    obtain ⟨b, hb, hchars⟩ := data.store_of_le hle
    refine ⟨b, ?_, ?_⟩
    · simp only [dcafsReadValue, static_type he hs, htype, ok_bind, static_int he hs htype hf, hb,
        inBounds, pure_eq_ok]
    · rw [hchars]
      exact List.take_left
  | @str e s f _ he hs htype hf _ hget =>
    obtain ⟨b, hb, hp⟩ := hget dcafsMaxStrLen data dcafsMaxStrLen
      (Nat.lt_trans hlt (by decide)) (Nat.le_refl _)
    refine ⟨b, ?_, (List.prefix_iff_eq_take.mp hp).symm⟩
    simp only [dcafsReadValue, static_type he hs, htype, ok_bind, static_str he hs htype hf, hb,
      pure_eq_ok]

/-- And this is that of `db_node_value_to_str`. -/
theorem valueToStr (g : Globals) (buf : Buf dcafsMaxStrLen) :
    ∃ b, dbNodeValueToStr db g (.fl flIdx subIdx false) buf = .ok (g, b, (text.length : Int) + 1) ∧
      b.Shows text := by
  have hlt : text.length < 127 := h.length_lt
  have hfour : 4 ≤ dcafsMaxStrLen := by decide
  cases h with
  | @int e s f he hs htype hf hv =>
    obtain ⟨b, hval, hshows⟩ :=
      valueToStr_of_int hfour ((static_type he hs g).trans (congrArg Except.ok htype))
        (static_int he hs htype hf g) buf
    have htext : numberText dcafsMaxStrLen (fmtS32Dec (f db.env)) = fmtS32Dec (f db.env) :=
      if_neg (show ¬ 127 < _ by omega)
    rw [htext] at hval hshows
    exact ⟨b, hval, hshows⟩
  | @str e s f _ he hs htype hf _ hget =>
    obtain ⟨b, hb, hp⟩ := hget dcafsMaxStrLen buf (dcafsMaxStrLen - 1) hlt (Nat.sub_le _ _)
    obtain ⟨b', hterm, hshows⟩ := terminate_shows hp (Nat.lt_trans hlt (by decide))
    refine ⟨b', ?_, hshows⟩
    rw [valueToStr_str hfour ((static_type he hs g).trans (congrArg Except.ok htype)),
      static_str he hs htype hf, hb]
    simp only [ok_bind, hterm, pure_eq_ok]

theorem getSize (g : Globals) : ∃ n, dbNodeGetSize db g (.fl flIdx subIdx false) = .ok n := by
  cases h with
  | @int e s f he hs htype hf hv =>
    refine ⟨4, ?_⟩
    simp only [dbNodeGetSize, flNodeGetsize, flEntry_eq he, staticEntry_eq hs, htype, ok_bind]
    rfl
  | @str e s f _ he hs htype hf hlen hget =>
    obtain ⟨b, hb, -⟩ := hget 128 (Buf.zero 128) 128 (by omega) (Nat.le_refl _)
    refine ⟨text.length, ?_⟩
    simp only [dbNodeGetSize, flNodeGetsize, flNodeGetstrValue, flEntry_eq he, staticEntry_eq hs,
      htype, hf, ok_bind, hb]
    rfl

/-- What a read of the file gives. -/
theorem call_read (s : FileState w) (hnode : s.filp.node = .fl flIdx subIdx false)
    (hpos : 0 ≤ s.filp.pos.toInt) (nbytes : w.Word) (data : Buf dcafsMaxStrLen) :
    ∃ s' : FileState w, s.call db (.read nbytes data) = .ok (s',
        ⟨(chunk text.chars s.filp.pos.toNat nbytes.toNat).length,
          chunk text.chars s.filp.pos.toNat nbytes.toNat⟩) ∧
      s'.filp.node = s.filp.node ∧ 0 ≤ s'.filp.pos.toInt ∧ s'.filp.pos.toNat
        = s.filp.pos.toNat + (chunk text.chars s.filp.pos.toNat nbytes.toNat).length := by
  obtain ⟨b, hvalue, htake⟩ := h.readValue s.g data
  rw [← hnode] at hvalue
  have hsize : text.length ≤ dcafsMaxStrLen := Nat.le_trans (Nat.le_of_lt h.length_lt) (by decide)
  obtain ⟨s', hcall, -, hnode', hpos', hmoved⟩ := call_of_value hvalue hsize hpos nbytes
  rw [htake] at hcall hmoved
  exact ⟨s', hcall, hnode', hpos', hmoved⟩

/-- What a seek in the file does. -/
theorem call_lseek (s : FileState w) (hnode : s.filp.node = .fl flIdx subIdx false)
    (hpos : 0 ≤ s.filp.pos.toInt) (off : w.Word) (whence : Whence) :
    ∃ (s' : FileState w) (ret : Int), s.call db (.lseek off whence) = .ok (s', ⟨ret, []⟩) ∧
      s'.filp.node = s.filp.node ∧ 0 ≤ s'.filp.pos.toInt ∧
      if ret < 0 then s'.filp.pos = s.filp.pos else s'.filp.pos.toInt = ret := by
  -- a position that has been worked out is taken if it is not negative
  have htarget : ∀ target : w.Word, ∃ (filp' : VfsFile w) (ret : Int),
      (if target.toInt < 0 then (.ok (s.filp, einval) : Res (VfsFile w × Int))
        else .ok ({ s.filp with pos := target }, target.toInt)) = .ok (filp', ret) ∧
      filp'.node = s.filp.node ∧ 0 ≤ filp'.pos.toInt ∧
      if ret < 0 then filp'.pos = s.filp.pos else filp'.pos.toInt = ret := by
    intro target
    by_cases hneg : target.toInt < 0
    · refine ⟨s.filp, einval, if_pos hneg, rfl, hpos, ?_⟩
      rw [if_pos einval_neg]
    · refine ⟨_, _, if_neg hneg, rfl, Int.not_lt.mp hneg, ?_⟩
      rw [if_neg hneg]
  obtain ⟨size, hsize⟩ := h.getSize s.g
  rw [← hnode] at hsize
  cases whence with
  | seekSet =>
    obtain ⟨filp', ret, hret, hstate⟩ := htarget off
    exact ⟨⟨s.g, filp'⟩, ret, by simp only [FileState.call, dcafsLseek, ok_bind, pure_eq_ok, hret],
      hstate⟩
  | seekCur =>
    obtain ⟨filp', ret, hret, hstate⟩ := htarget (off + s.filp.pos)
    exact ⟨⟨s.g, filp'⟩, ret, by simp only [FileState.call, dcafsLseek, ok_bind, pure_eq_ok, hret],
      hstate⟩
  | seekEnd =>
    obtain ⟨filp', ret, hret, hstate⟩ := htarget (off + BitVec.ofNat w.bits size)
    exact ⟨⟨s.g, filp'⟩, ret,
      by simp only [FileState.call, dcafsLseek, hsize, ok_bind, pure_eq_ok, hret], hstate⟩
  | other =>
    refine ⟨s, einval, rfl, rfl, hpos, ?_⟩
    rw [if_pos einval_neg]

/-- **A call serves the text**, and leaves the file at a position that is not negative. -/
theorem call_serves (s : FileState w) (hnode : s.filp.node = .fl flIdx subIdx false)
    (hpos : 0 ≤ s.filp.pos.toInt) (call : FileCall w) :
    ∃ s' reply, s.call db call = .ok (s', reply) ∧
      call.Serves text.chars s.filp s'.filp reply ∧
      s'.filp.node = s.filp.node ∧ 0 ≤ s'.filp.pos.toInt := by
  rcases call with ⟨nbytes, data⟩ | ⟨off, whence⟩
  · obtain ⟨s', hcall, hnode', hpos', hmoved⟩ := h.call_read s hnode hpos nbytes data
    exact ⟨s', _, hcall, ⟨rfl, rfl, hmoved⟩, hnode', hpos'⟩
  · obtain ⟨s', ret, hcall, hnode', hpos', hmoved⟩ := h.call_lseek s hnode hpos off whence
    exact ⟨s', _, hcall, hmoved, hnode', hpos'⟩

/-- **A session serves the text**, by induction on its calls. -/
theorem session_serves (calls : List (FileCall w)) (s : FileState w)
    (hnode : s.filp.node = .fl flIdx subIdx false) (hpos : 0 ≤ s.filp.pos.toInt) :
    ServesText db text.chars s calls := by
  induction calls generalizing s with
  | nil => exact hpos
  | cons call calls ih =>
    obtain ⟨s', reply, hcall, hserves, hnode', hpos'⟩ := h.call_serves s hnode hpos call
    exact ⟨hpos, s', reply, hcall, hserves, ih s' (hnode'.trans hnode) hpos'⟩

/-- A session begins when the file is opened. -/
theorem opened_serves {fuel flags : Nat} {g g' : Globals} {name : CString} {child : DbNode}
    {nameBuf : NameBuf} {code : Int} {filp : VfsFile w}
    (hopen : dcafsOpen db w fuel g name flags child nameBuf = .ok (g', code, some filp))
    (hnode : filp.node = .fl flIdx subIdx false) (calls : List (FileCall w)) :
    ServesText db text.chars ⟨g', filp⟩ calls := by
  have hstart : filp.pos = 0#w.bits := by
    unfold dcafsOpen at hopen
    split_ifs at hopen
    · cases hopen
    · obtain ⟨found, -, hopen⟩ := bind_eq_ok.mp hopen
      split_ifs at hopen
      · cases hopen
      · obtain ⟨-, -, rfl⟩ : found.g = g' ∧ 0 = code ∧ ⟨0, found.node⟩ = filp := by
          simpa using hopen
        rfl
  refine h.session_serves calls ⟨g', filp⟩ hnode ?_
  show 0 ≤ filp.pos.toInt
  rw [hstart]
  exact start_nonneg

/-- Reads one after the other give the chunks of the text. -/
theorem readEach_eq (reads : List (w.Word × Buf dcafsMaxStrLen)) (s : FileState w)
    (hnode : s.filp.node = .fl flIdx subIdx false) (hpos : 0 ≤ s.filp.pos.toInt) :
    ∃ s', s.readEach db reads
      = .ok (s', chunks text.chars s.filp.pos.toNat (reads.map (·.1.toNat))) := by
  induction reads generalizing s with
  | nil => exact ⟨s, rfl⟩
  | cons read reads ih =>
    obtain ⟨nbytes, data⟩ := read
    obtain ⟨s', hcall, hnode', hpos', hmoved⟩ := h.call_read s hnode hpos nbytes data
    obtain ⟨s'', hrest⟩ := ih s' (hnode'.trans hnode) hpos'
    refine ⟨s'', ?_⟩
    rw [hmoved] at hrest
    simp only [FileState.readEach, hcall, ok_bind, hrest, pure_eq_ok, List.map_cons, chunks]

end LeafText

/-- The getters of `board.c` write their texts into every array that has room for them. -/
theorem leafText_board {e : DbFlEntry} {s : DbFlStaticEntry}
    (he : db.dbIndex[flIdx.toNat]? = some e) (hs : e.staticEntries[subIdx.toNat]? = some s)
    (htype : s.type = .str) {f : Env → (n : Nat) → Buf n → Nat → Res (Buf n × Nat)}
    (hf : s.getValueFn = .str f) (hcopy : ∀ n, @f db.env n = @copyText text n)
    (hlen : text.length < 127) : LeafText db flIdx subIdx text := by
  refine .str he hs htype hf hlen ?_
  intro n buf bufsize hlt hle
  obtain ⟨b, hb, hshows⟩ := copyText_of_lt buf hlt hle
  rw [hcopy n]
  exact ⟨b, hb, hshows.begins⟩

/--
**A file serves the text of its value.** `db_node_value_to_str` writes this text, every session with
the file serves it, and reads up to one that gives nothing give the whole of it.
-/
theorem file_serves_text (w : FileWidth) (g : Globals) (h : LeafText db flIdx subIdx text) :
    (∀ buf : Buf dcafsMaxStrLen, ∃ b, dbNodeValueToStr db g (.fl flIdx subIdx false) buf
        = .ok (g, b, (text.length : Int) + 1) ∧ b.Shows text) ∧
      (∀ calls : List (FileCall w),
        ServesText db text.chars ⟨g, ⟨0, .fl flIdx subIdx false⟩⟩ calls) ∧
      ∀ reads : List (w.Word × Buf dcafsMaxStrLen), (∀ read ∈ reads, 0 < read.1.toNat) →
        ∃ s dests, FileState.readEach db ⟨g, ⟨0, .fl flIdx subIdx false⟩⟩ reads = .ok (s, dests) ∧
          (dests.getLast? = some [] → dests.flatten = text.chars) := by
  refine ⟨h.valueToStr g, fun calls => h.session_serves calls _ rfl start_nonneg, ?_⟩
  intro reads hreads
  obtain ⟨s, heach⟩ := h.readEach_eq reads ⟨g, ⟨0, .fl flIdx subIdx false⟩⟩ rfl start_nonneg
  have hasked : ∀ n ∈ reads.map (·.1.toNat), 0 < n := by
    intro n hn
    obtain ⟨read, hread, rfl⟩ := List.mem_map.mp hn
    exact hreads read hread
  exact ⟨s, _, heach, flatten_chunks_of_last hasked⟩

/-- The name of the small board. -/
theorem file_serves_text_small :
    (∀ buf : Buf dcafsMaxStrLen, ∃ b, dbNodeValueToStr smallDb {} (.fl 0 0 false) buf
        = .ok ({}, b, ((CString.lit "native").length : Int) + 1) ∧ b.Shows (.lit "native")) ∧
      (∀ calls : List (FileCall ⟨32, by decide⟩),
        ServesText smallDb (CString.lit "native").chars ⟨{}, ⟨0, .fl 0 0 false⟩⟩ calls) ∧
      ∀ reads : List (FileWidth.Word ⟨32, by decide⟩ × Buf dcafsMaxStrLen),
        (∀ read ∈ reads, 0 < read.1.toNat) →
        ∃ s dests, FileState.readEach smallDb ⟨{}, ⟨0, .fl 0 0 false⟩⟩ reads = .ok (s, dests) ∧
          (dests.getLast? = some [] → dests.flatten = (CString.lit "native").chars) := by
  refine file_serves_text ⟨32, by decide⟩ {} ?_
  exact leafText_board rfl rfl rfl rfl (fun _ => rfl) (by decide)

end Dca
