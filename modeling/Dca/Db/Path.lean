import Dca.Lib.Components
import Dca.Db.Index

/-!
# A lookup is a fold over the components of its path

`db_find_node_by_path` walks `tok`, `s_pos` and `path_end` over the string and keeps one child
variable and one name buffer for all levels. Here it is shown to be the left fold, over the
non-empty components, of a step that descends by one component.

Two invariants carry the proof. At the head of the outer loop `tok` is not on a slash and `s_pos`
is where the component at `tok` ends (`AtPiece`). And the child variable always holds a copy of
`node`, except before the first component, where the root node overwrites it (`Ready`).
-/

namespace Dca

open CLib

variable (db : Db)

/-! ## The descent step -/

/-- The state between two components. -/
structure Descent where
  g : Globals
  node : DbNode
  nameBuf : NameBuf
  deriving DecidableEq

/-- How a descent ends early: in a trap, or with `-ENOENT` and the node it was stuck at. -/
inductive Stop where
  | trap (t : Trap)
  | notFound (g : Globals) (node : DbNode)
  deriving DecidableEq

/-- The state that a search among the children of a node leads to. -/
def searchOutcome : Res (Bool × Search) → Except Stop Descent
  | .ok (true, s) => .ok ⟨s.cur.g, s.cur.child, s.nameBuf⟩
  | .ok (false, s) => .error (.notFound s.cur.g s.cur.node)
  | .error t => .error (.trap t)

/-- Descend by one component. -/
def descend (fuel : Nat) (d : Descent) (comp : List Char) : Except Stop Descent :=
  searchOutcome (searchChild db comp fuel ⟨⟨d.g, d.node, d.node⟩, d.nameBuf⟩)

/-- What a lookup returns after its last step. -/
def lookupResult : Except Stop Descent → Res Found
  | .ok d => .ok ⟨d.g, 0, d.node⟩
  | .error (.notFound g node) => .ok ⟨g, enoent, node⟩
  | .error (.trap t) => .error t

/-- The components of a path. -/
def pathComponents (path : CString) : List (List Char) := components '/' path.chars

/-- The state before the first component. -/
def Descent.start (g : Globals) : Descent := ⟨g, dbGetRoot, Buf.zero _⟩

/-! ## The children of a node, and the one a step looks for -/

/-- `s'` has the next child of `s`, which is not null, and its name. -/
structure TakesChild (s s' : Search) : Prop where
  next : dbNodeGetNextChild db s.cur = .ok s'.cur
  notNull : dbNodeIsNull db s'.cur.g s'.cur.child = .ok false
  name : dbNodeGetName db s'.cur.g s'.cur.child s.nameBuf = .ok s'.nameBuf

/-- The children that are taken one after the other on the way from `s` to `t`. -/
inductive GoesPast : Search → List Search → Search → Prop where
  | nil (s : Search) : GoesPast s [] s
  | cons {s s' t : Search} {children : List Search} (first : TakesChild db s s')
      (rest : GoesPast s' children t) : GoesPast s (s' :: children) t

/-- The component and the name in the buffer differ before either of them ends. -/
def Differs (comp : List Char) (nameBuf : NameBuf) : Prop :=
  ¬ comp <+: nameBuf.chars ∧ ¬ nameBuf.chars <+: comp

/-- Before the first child. -/
def Descent.search (d : Descent) : Search := ⟨⟨d.g, d.node, d.node⟩, d.nameBuf⟩

/-- At a child. -/
def Search.descent (s : Search) : Descent := ⟨s.cur.g, s.cur.child, s.nameBuf⟩

/-- `d'` is the first child of `d` whose name begins with the component. There are `n` in front. -/
def FirstMatch (d : Descent) (comp : List Char) (n : Nat) (d' : Descent) : Prop :=
  ∃ passed t s, GoesPast db d.search passed t ∧ passed.length = n ∧
    (∀ p ∈ passed, Differs comp p.nameBuf) ∧ TakesChild db t s ∧ comp <+: s.nameBuf.chars ∧
    d' = s.descent

/-- The `n` children of `d` come to their end at `c`, and no name begins with the component. -/
def NoMatch (d : Descent) (comp : List Char) (n : Nat) (c : Cursor) : Prop :=
  ∃ passed t, GoesPast db d.search passed t ∧ passed.length = n ∧
    (∀ p ∈ passed, Differs comp p.nameBuf) ∧ dbNodeGetNextChild db t.cur = .ok c ∧
    dbNodeIsNull db c.g c.child = .ok true

/-! ## The three pointers -/

theorem skipSlashes_eq (l : List Char) (tok : Nat) :
    skipSlashes l tok = tok + (l.takeWhile (· = '/')).length := by
  induction l generalizing tok with
  | nil => rfl
  | cons c l ih =>
    by_cases hc : c = '/'
    · subst hc
      rw [skipSlashes, ih, List.takeWhile_cons_of_pos (by simp), List.length_cons]
      omega
    · rw [List.takeWhile_cons_of_neg (by simpa using hc), List.length_nil, Nat.add_zero]
      rw [skipSlashes]
      intro rest h
      exact hc (List.cons.inj h).1

theorem strchrSlash_getD (l : List Char) (tok : Nat) :
    (strchrSlash l tok).getD (tok + l.length) = tok + (frontPiece '/' l).length := by
  induction l generalizing tok with
  | nil => rfl
  | cons c l ih =>
    unfold frontPiece at ih ⊢
    by_cases hc : c = '/'
    · simp [strchrSlash, hc]
    · rw [strchrSlash, if_neg hc, List.takeWhile_cons_of_pos (by simpa using hc), List.length_cons,
        List.length_cons]
      have h := ih (tok + 1)
      rw [show tok + 1 + l.length = tok + (l.length + 1) by omega] at h
      rw [h]
      omega

/-- `drop` past a `takeWhile` is `dropWhile`. -/
theorem drop_length_takeWhile {α : Type} (p : α → Bool) (l : List α) :
    l.drop (l.takeWhile p).length = l.dropWhile p := by
  have h : (l.takeWhile p ++ l.dropWhile p).drop (l.takeWhile p).length = l.dropWhile p :=
    List.drop_left
  rwa [List.takeWhile_append_dropWhile] at h

theorem drop_skipSlashes (l : List Char) (tok : Nat) :
    l.drop (skipSlashes (l.drop tok) tok) = (l.drop tok).dropWhile (· = '/') := by
  rw [skipSlashes_eq, ← drop_length_takeWhile, List.drop_drop]

theorem slashOrEnd_eq (path : CString) {tok : Nat} (h : tok ≤ path.length) :
    slashOrEnd path tok = tok + (frontPiece '/' (path.chars.drop tok)).length := by
  unfold slashOrEnd
  rw [← strchrSlash_getD, List.length_drop]
  congr 1
  show path.chars.length = tok + (path.chars.length - tok)
  have : tok ≤ path.chars.length := h
  omega

theorem skipSlashes_le (l : List Char) (tok : Nat) : skipSlashes l tok ≤ tok + l.length := by
  rw [skipSlashes_eq]
  have h : (l.takeWhile (· = '/')).length ≤ l.length := (List.takeWhile_sublist _).length_le
  omega

/-- The pointers at the head of the outer loop, with `rest` still to be read. -/
structure AtPiece (path : CString) (tok sPos : Nat) (rest : List Char) : Prop where
  rest_eq : path.chars.drop tok = rest
  tok_le : tok ≤ path.length
  sPos_eq : sPos = tok + (frontPiece '/' rest).length
  noSlash : ∀ l, rest ≠ '/' :: l

/-- Skipping slashes from `pos` on puts the pointers at a piece. -/
theorem atPiece_skip (path : CString) {pos : Nat} (h : pos ≤ path.length) :
    AtPiece path (skipSlashes (path.chars.drop pos) pos)
      (slashOrEnd path (skipSlashes (path.chars.drop pos) pos))
      ((path.chars.drop pos).dropWhile (· = '/')) where
  rest_eq := drop_skipSlashes path.chars pos
  tok_le := by
    have hle := skipSlashes_le (path.chars.drop pos) pos
    rw [List.length_drop] at hle
    have : pos ≤ path.chars.length := h
    show _ ≤ path.chars.length
    omega
  sPos_eq := by
    rw [slashOrEnd_eq, drop_skipSlashes]
    have hle := skipSlashes_le (path.chars.drop pos) pos
    rw [List.length_drop] at hle
    have : pos ≤ path.chars.length := h
    show _ ≤ path.chars.length
    omega
  noSlash := by
    intro l hl
    have hhead := List.head?_dropWhile_not (fun x => decide (x = '/')) (path.chars.drop pos)
    rw [hl] at hhead
    simp at hhead

namespace AtPiece

variable {path : CString} {tok sPos : Nat} {rest : List Char}

theorem tok_lt (h : AtPiece path tok sPos rest) (hne : rest ≠ []) : tok < path.length := by
  rcases Nat.lt_or_ge tok path.length with hlt | hge
  · exact hlt
  · exact absurd (h.rest_eq ▸ List.drop_eq_nil_of_le hge) hne

theorem tok_eq (h : AtPiece path tok sPos []) : tok = path.length := by
  have hle : path.chars.length ≤ tok := List.drop_eq_nil_iff.mp h.rest_eq
  exact Nat.le_antisymm h.tok_le hle

theorem length_rest (h : AtPiece path tok sPos rest) : rest.length = path.length - tok := by
  rw [← h.rest_eq, List.length_drop]
  rfl

theorem tok_le_sPos (h : AtPiece path tok sPos rest) : tok ≤ sPos := by
  rw [h.sPos_eq]
  omega

theorem sPos_le (h : AtPiece path tok sPos rest) : sPos ≤ path.length := by
  have hsub : (frontPiece '/' rest).length ≤ rest.length := by
    unfold frontPiece
    exact (List.takeWhile_sublist _).length_le
  rw [h.length_rest] at hsub
  rw [h.sPos_eq]
  have := h.tok_le
  omega

/-- The bytes that `memcmp` compares are the component. -/
theorem piece_eq (h : AtPiece path tok sPos rest) :
    (path.chars.drop tok).take (sPos - tok) = frontPiece '/' rest := by
  rw [h.sPos_eq, Nat.add_sub_cancel_left, h.rest_eq]
  unfold frontPiece
  exact (List.prefix_iff_eq_take.mp (List.takeWhile_prefix _)).symm

theorem drop_sPos (h : AtPiece path tok sPos rest) :
    path.chars.drop sPos = rest.dropWhile (· ≠ '/') := by
  rw [h.sPos_eq, ← List.drop_drop, h.rest_eq]
  exact drop_length_takeWhile _ rest

/-- The rest becomes shorter with every component. -/
theorem length_lt (_h : AtPiece path tok sPos rest) {c : Char} {l : List Char}
    (hr : rest = c :: l) (hc : c ≠ '/') :
    ((rest.dropWhile (· ≠ '/')).dropWhile (· = '/')).length < rest.length := by
  subst hr
  rw [List.dropWhile_cons_of_pos (by simpa using hc), List.length_cons]
  have h₁ : ((l.dropWhile (· ≠ '/')).dropWhile (· = '/')).length ≤ (l.dropWhile (· ≠ '/')).length :=
    (List.dropWhile_sublist _).length_le
  have h₂ : (l.dropWhile (· ≠ '/')).length ≤ l.length := (List.dropWhile_sublist _).length_le
  omega

end AtPiece

/-! ## The reused variables -/

/-- The locals `s` behave like the state `d`: every search from `s` is a descent from `d`. -/
structure Ready (fuel : Nat) (s : Search) (d : Descent) : Prop where
  g : s.cur.g = d.g
  node : s.cur.node = d.node
  notNull : dbNodeIsNull db s.cur.g s.cur.node = .ok false
  search : ∀ comp, searchOutcome (searchChild db comp fuel s) = descend db fuel d comp

/-- What one round of the inner loop can do. -/
theorem searchChild_succ_cases {comp : List Char} {fuel : Nat} {s s' : Search} {found : Bool}
    (h : searchChild db comp (fuel + 1) s = .ok (found, s')) :
    ∃ cur, dbNodeGetNextChild db s.cur = .ok cur ∧
      ((dbNodeIsNull db cur.g cur.child = .ok true ∧ found = false ∧ s' = { s with cur }) ∨
        (dbNodeIsNull db cur.g cur.child = .ok false ∧
          ∃ nameBuf, dbNodeGetName db cur.g cur.child s.nameBuf = .ok nameBuf ∧
            ((Buf.memcmp comp nameBuf.chars = some true ∧ found = true ∧
                s' = { cur, nameBuf }) ∨
              (Buf.memcmp comp nameBuf.chars = some false ∧
                searchChild db comp fuel { cur, nameBuf } = .ok (found, s'))))) := by
  rw [searchChild] at h
  obtain ⟨cur, hcur, h⟩ := bind_eq_ok.mp h
  refine ⟨cur, hcur, ?_⟩
  obtain ⟨isNull, hnull, h⟩ := bind_eq_ok.mp h
  cases isNull with
  | true =>
    obtain ⟨rfl, rfl⟩ : false = found ∧ { s with cur } = s' := by simpa using h
    exact Or.inl ⟨hnull, rfl, rfl⟩
  | false =>
    rw [if_neg (by simp)] at h
    obtain ⟨nameBuf, hname, h⟩ := bind_eq_ok.mp h
    obtain ⟨eq, heq, h⟩ := bind_eq_ok.mp h
    refine Or.inr ⟨hnull, nameBuf, hname, ?_⟩
    cases eq with
    | true =>
      obtain ⟨rfl, rfl⟩ : true = found ∧ ({ cur, nameBuf } : Search) = s' := by simpa using h
      exact Or.inl ⟨by simpa using heq, rfl, rfl⟩
    | false => exact Or.inr ⟨by simpa using heq, by simpa using h⟩

/-- What a successful search leaves is a child that is not null. -/
theorem searchChild_notNull {comp : List Char} {fuel : Nat} {s s' : Search}
    (h : searchChild db comp fuel s = .ok (true, s')) :
    dbNodeIsNull db s'.cur.g s'.cur.child = .ok false := by
  induction fuel generalizing s with
  | zero => simp [searchChild] at h
  | succ fuel ih =>
    obtain ⟨cur, -, ⟨-, hf, -⟩ | ⟨hnull, nameBuf, -, ⟨-, -, rfl⟩ | ⟨-, hrest⟩⟩⟩ :=
      searchChild_succ_cases db h
    · cases hf
    · exact hnull
    · exact ih hrest

/-- The search goes through the children in front. -/
theorem searchChild_goesPast {comp : List Char} {s t : Search} {passed : List Search}
    (h : GoesPast db s passed t) (hpassed : ∀ p ∈ passed, Differs comp p.nameBuf) (fuel : Nat) :
    searchChild db comp (fuel + passed.length) s = searchChild db comp fuel t := by
  induction h with
  | nil s => rfl
  | @cons s s' t children first _ ih =>
    obtain ⟨hdiffers, hrest⟩ := List.forall_mem_cons.mp hpassed
    have hcmp : Buf.memcmp comp s'.nameBuf.chars = some false := Buf.memcmp_eq_false.mpr hdiffers
    rw [← ih hrest, List.length_cons, ← Nat.add_assoc, searchChild, first.next, ok_bind,
      first.notNull, ok_bind]
    simp only [Bool.false_eq_true, if_false, first.name, ok_bind, hcmp, inBounds]

/-- The search takes the children in front of the one that it finds. -/
theorem exists_goesPast_of_searchChild {comp : List Char} {fuel : Nat} {s s' : Search}
    {found : Bool} (h : searchChild db comp fuel s = .ok (found, s')) :
    ∃ passed t, GoesPast db s passed t ∧ passed.length < fuel ∧
      (∀ p ∈ passed, Differs comp p.nameBuf) ∧
      (if found then TakesChild db t s' ∧ comp <+: s'.nameBuf.chars
        else dbNodeGetNextChild db t.cur = .ok s'.cur ∧
          dbNodeIsNull db s'.cur.g s'.cur.child = .ok true) := by
  induction fuel generalizing s with
  | zero => simp [searchChild] at h
  | succ fuel ih =>
    obtain ⟨cur, hcur, ⟨hnull, rfl, rfl⟩ | ⟨hnull, nameBuf, hname, ⟨hcmp, rfl, rfl⟩ |
      ⟨hcmp, hrest⟩⟩⟩ := searchChild_succ_cases db h
    · exact ⟨[], s, .nil s, Nat.succ_pos _, by simp, by simpa using ⟨hcur, hnull⟩⟩
    · refine ⟨[], s, .nil s, Nat.succ_pos _, by simp, ?_⟩
      rw [if_pos rfl]
      exact ⟨⟨hcur, hnull, hname⟩, Buf.memcmp_eq_true.mp hcmp⟩
    · obtain ⟨passed, t, hpast, hlen, hpassed, hend⟩ := ih hrest
      refine ⟨⟨cur, nameBuf⟩ :: passed, t, .cons ⟨hcur, hnull, hname⟩ hpast,
        Nat.succ_lt_succ hlen, ?_, hend⟩
      exact List.forall_mem_cons.mpr ⟨Buf.memcmp_eq_false.mp hcmp, hpassed⟩

theorem searchOutcome_eq_ok {r : Res (Bool × Search)} {d : Descent} :
    searchOutcome r = .ok d ↔ ∃ s, r = .ok (true, s) ∧ s.descent = d := by
  unfold searchOutcome Search.descent
  split <;> simp

theorem searchOutcome_eq_notFound {r : Res (Bool × Search)} {g : Globals} {node : DbNode} :
    searchOutcome r = .error (.notFound g node)
      ↔ ∃ s, r = .ok (false, s) ∧ s.cur.g = g ∧ s.cur.node = node := by
  unfold searchOutcome
  split <;> simp

/-- **A step finds the first child whose name begins with the component.** -/
theorem descend_eq_ok_iff {fuel : Nat} {d d' : Descent} {comp : List Char} :
    descend db fuel d comp = .ok d' ↔ ∃ n < fuel, FirstMatch db d comp n d' := by
  rw [descend, searchOutcome_eq_ok]
  constructor
  · rintro ⟨s, hs, rfl⟩
    obtain ⟨passed, t, hpast, hlen, hpassed, hend⟩ := exists_goesPast_of_searchChild db hs
    rw [if_pos rfl] at hend
    exact ⟨_, hlen, passed, t, s, hpast, rfl, hpassed, hend.1, hend.2, rfl⟩
  · rintro ⟨n, hn, passed, t, s, hpast, rfl, hpassed, htakes, hcomp, rfl⟩
    obtain ⟨k, rfl⟩ : ∃ k, fuel = k + 1 + passed.length := ⟨fuel - 1 - passed.length, by omega⟩
    refine ⟨s, ?_, rfl⟩
    have hcmp : Buf.memcmp comp s.nameBuf.chars = some true := Buf.memcmp_eq_true.mpr hcomp
    have hsearch := searchChild_goesPast db hpast hpassed (k + 1)
    rw [Descent.search] at hsearch
    rw [hsearch, searchChild, htakes.next, ok_bind, htakes.notNull, ok_bind]
    simp only [Bool.false_eq_true, if_false, htakes.name, ok_bind, hcmp, inBounds, if_true]
    rfl

/-- **A step ends with `-ENOENT` if the children come to their end without one.** -/
theorem descend_eq_notFound_iff {fuel : Nat} {d : Descent} {comp : List Char} {g : Globals}
    {node : DbNode} :
    descend db fuel d comp = .error (.notFound g node)
      ↔ ∃ n < fuel, ∃ child, NoMatch db d comp n ⟨g, node, child⟩ := by
  rw [descend, searchOutcome_eq_notFound]
  constructor
  · rintro ⟨s, hs, rfl, rfl⟩
    obtain ⟨passed, t, hpast, hlen, hpassed, hend⟩ := exists_goesPast_of_searchChild db hs
    rw [if_neg (by simp)] at hend
    exact ⟨_, hlen, s.cur.child, passed, t, hpast, rfl, hpassed, hend.1, hend.2⟩
  · rintro ⟨n, hn, child, passed, t, hpast, rfl, hpassed, hnext, hnull⟩
    obtain ⟨k, rfl⟩ : ∃ k, fuel = k + 1 + passed.length := ⟨fuel - 1 - passed.length, by omega⟩
    refine ⟨{ t with cur := ⟨g, node, child⟩ }, ?_, rfl, rfl⟩
    have hsearch := searchChild_goesPast db hpast hpassed (k + 1)
    rw [Descent.search] at hsearch
    rw [hsearch, searchChild, hnext, ok_bind, hnull, ok_bind]
    rfl

/-- After a descent the child variable is a copy of the node. -/
theorem ready_of_found {fuel : Nat} {comp : List Char} {s s' : Search}
    (h : searchChild db comp fuel s = .ok (true, s')) :
    Ready db fuel { s' with cur := { s'.cur with node := s'.cur.child } }
      ⟨s'.cur.g, s'.cur.child, s'.nameBuf⟩ where
  g := rfl
  node := rfl
  notNull := by
    have hnull := searchChild_notNull db h
    exact hnull
  search := fun _ => rfl

theorem dbNodeIsNull_newFlNode (g : Globals) (idx : UInt8) :
    dbNodeIsNull db g (dbNewFlNode idx) = .ok false := rfl

/-- The name of a branch fills the whole array. -/
theorem dbNodeGetName_newFlNode (g : Globals) (idx : UInt8) (b₁ b₂ : NameBuf) :
    dbNodeGetName db g (dbNewFlNode idx) b₁ = dbNodeGetName db g (dbNewFlNode idx) b₂ := rfl

/-- The first call on the root node overwrites both the child variable and the name buffer. -/
theorem search_root_eq (fuel : Nat) (comp : List Char) (g : Globals) (c₁ c₂ : DbNode)
    (b₁ b₂ : NameBuf) :
    searchOutcome (searchChild db comp fuel ⟨⟨g, dbGetRoot, c₁⟩, b₁⟩)
      = searchOutcome (searchChild db comp fuel ⟨⟨g, dbGetRoot, c₂⟩, b₂⟩) := by
  cases fuel with
  | zero => rfl
  | succ fuel =>
    by_cases h : 0 < db.dbIndex.length
    · have hnext : ∀ c, dbNodeGetNextChild db ⟨g, dbGetRoot, c⟩
          = .ok ⟨g, .root 1, dbNewFlNode 0⟩ := by
        intro c
        simp [dbGetRoot, dbNodeGetNextChild, rootGetNextChild, h]
      simp only [searchChild, hnext, ok_bind, dbNodeIsNull_newFlNode,
        dbNodeGetName_newFlNode db g 0 b₁ b₂]
      rfl
    · have hnext : ∀ c, dbNodeGetNextChild db ⟨g, dbGetRoot, c⟩ = .ok ⟨g, dbGetRoot, .null⟩ := by
        intro c
        simp [dbGetRoot, dbNodeGetNextChild, rootGetNextChild, h]
      simp only [searchChild, hnext, ok_bind]
      rfl

/-- Before the first component the locals may hold anything. -/
theorem ready_start (fuel : Nat) (g : Globals) (child : DbNode) (nameBuf : NameBuf) :
    Ready db fuel ⟨⟨g, dbGetRoot, child⟩, nameBuf⟩ (.start g) where
  g := rfl
  node := rfl
  notNull := rfl
  search := fun comp => search_root_eq db fuel comp g child dbGetRoot nameBuf _

/-! ## The outer loop -/

/-- **The outer loop is the fold over the components that are still to be read.** -/
theorem findLoop_eq_fold (fuel : Nat) (path : CString) :
    ∀ (n tok sPos : Nat) (rest : List Char) (s : Search) (d : Descent),
      AtPiece path tok sPos rest → Ready db fuel s d → rest.length < n →
      findLoop db fuel path n tok sPos s
        = lookupResult ((components '/' rest).foldlM (descend db fuel) d) := by
  intro n
  induction n with
  | zero => intro tok sPos rest s d _ _ hn; omega
  | succ n ih =>
    intro tok sPos rest s d hp hr hn
    -- nothing is left exactly when `tok` has come to `path_end`
    cases rest with
    | nil =>
      rw [findLoop, if_pos hp.tok_eq, hr.g, hr.node]
      rfl
    | cons c l =>
      have hc : c ≠ '/' := fun h => hp.noSlash l (by rw [h])
      have hlt : tok < path.length := hp.tok_lt (by simp)
      rw [components_cons '/' hc, List.foldlM_cons, ← hr.search (frontPiece '/' (c :: l)), findLoop,
        if_neg (by omega)]
      simp only [assert_eq_ok.mpr (decide_eq_true hlt), assert_eq_ok.mpr (decide_eq_true hp.sPos_le),
        assert_eq_ok.mpr (decide_eq_true hp.tok_le_sPos), ok_bind, hr.notNull, Bool.not_false,
        assert_true, hp.piece_eq]
      cases hsearch : searchChild db (frontPiece '/' (c :: l)) fuel s with
      | error t => rfl
      | ok r =>
        obtain ⟨found, s'⟩ := r
        cases found with
        | false => rfl
        | true =>
          -- `tok` is now behind the slashes that follow the piece
          have hnext := atPiece_skip path hp.sPos_le
          rw [hp.drop_sPos] at hnext
          have hshort := hp.length_lt rfl hc
          simp only [ok_bind, Bool.not_true, Bool.false_eq_true, if_false, searchOutcome]
          rw [hp.drop_sPos]
          exact ih _ _ _ _ _ hnext (ready_of_found db hsearch) (by omega)

/-- **`db_find_node_by_path` is the fold over the components of the path.** -/
theorem dbFindNodeByPath_eq_fold (fuel : Nat) (g : Globals) (path : CString) (child : DbNode)
    (nameBuf : NameBuf) :
    dbFindNodeByPath db fuel g path child nameBuf
      = lookupResult ((pathComponents path).foldlM (descend db fuel) (.start g)) := by
  have hp := atPiece_skip path (Nat.zero_le path.length)
  rw [List.drop_zero] at hp
  have hlt : (path.chars.dropWhile (· = '/')).length < path.length + 1 :=
    Nat.lt_succ_of_le (List.dropWhile_sublist _).length_le
  have hloop := findLoop_eq_fold db fuel path _ _ _ _ _ _ hp (ready_start db fuel g child nameBuf) hlt
  rw [components_dropWhile] at hloop
  exact hloop

theorem dbFindNodeByPath_root (fuel : Nat) (g : Globals) (path : CString) (child : DbNode)
    (nameBuf : NameBuf) (h : pathComponents path = []) :
    dbFindNodeByPath db fuel g path child nameBuf = .ok ⟨g, 0, dbGetRoot⟩ := by
  rw [dbFindNodeByPath_eq_fold, h]
  rfl

/--
Two paths with the same components are the same lookup, whatever the uninitialised locals hold in
either of them. This lookup is the fold, and without components it yields the root. A step of the
fold goes to the first child whose name begins with the component, and stops with `-ENOENT` if the
children come to their end without one.
-/
theorem dbFindNodeByPath_components (fuel : Nat) (g : Globals) (p q : CString) (c₁ c₂ : DbNode)
    (b₁ b₂ : NameBuf) (h : pathComponents p = pathComponents q) :
    dbFindNodeByPath db fuel g p c₁ b₁ = dbFindNodeByPath db fuel g q c₂ b₂ ∧
      dbFindNodeByPath db fuel g p c₁ b₁
        = lookupResult ((pathComponents p).foldlM (descend db fuel) (.start g)) ∧
      (pathComponents p = [] → dbFindNodeByPath db fuel g p c₁ b₁ = .ok ⟨g, 0, dbGetRoot⟩) ∧
      (∀ d comp d', descend db fuel d comp = .ok d' ↔ ∃ n < fuel, FirstMatch db d comp n d') ∧
      (∀ d comp g' node, descend db fuel d comp = .error (.notFound g' node)
        ↔ ∃ n < fuel, ∃ child, NoMatch db d comp n ⟨g', node, child⟩) := by
  have hp := dbFindNodeByPath_eq_fold db fuel g p c₁ b₁
  refine ⟨?_, hp, dbFindNodeByPath_root db fuel g p c₁ b₁, fun d comp d' => descend_eq_ok_iff db,
    fun d comp g' node => descend_eq_notFound_iff db⟩
  rw [hp, dbFindNodeByPath_eq_fold, h]

theorem dbFindNodeByPath_components_slashes :
    dbFindNodeByPath smallDb 8 {} (.lit "//board//name/") .null (Buf.zero _)
        = dbFindNodeByPath smallDb 8 {} (.lit "board/name") dbNewPsNode (Buf.zero _) :=
  (dbFindNodeByPath_components smallDb 8 {} (.lit "//board//name/") (.lit "board/name") .null
    dbNewPsNode (Buf.zero _) (Buf.zero _) (by decide)).1

end Dca
