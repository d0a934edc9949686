import Mathlib
import Decompilation.Proofs.DefUse.Implicit

/-!
# The registering and linking passes

After the old chains are cleared and the old implicit definitions deleted, a rebuild walks the
expressions of the blocks and the body twice (`Procedure.linkOrder`). The first walk registers
every definition site and keeps a table from each place and subscript to the last definition of
it met so far; the second links every read to the definition the table names, making up an
implicit one, recorded in the table, for a place and subscript the table lacks.

Each walk is described by what it has done after a prefix of the order: `Registered` for the
first, `Linked` for the second. Both are stated against the procedure the walks start from
(`Unchained`: trees below the walk, no chains, no implicit definitions), in which the places of
the sites are computed once and for all (`Procedure.keyOf`).

* `Procedure.lookupKey_setKey`: the table as a map;
* `Procedure.Registered.mark`, `Registered.skip`: one step of the first walk;
* `Procedure.Linked.found`, `Linked.missing`, `Linked.skip`: one step of the second walk.
-/

namespace Decompilation

namespace Procedure

open ExprShape

variable {p r q : Procedure} {l : List ExprId} {T : List ((String × Nat) × ExprId)}

/-! ### The table of last definitions -/

theorem lookupKey_setKey (T : List ((String × Nat) × ExprId)) (k k' : String × Nat) (v : ExprId) :
    lookupKey (setKey T k v) k' = if k' = k then some v else lookupKey T k' := by
  unfold lookupKey setKey
  by_cases h : k' = k
  · subst h
    simp
  · have hne : ((k, v).1 == k') = false := by simpa using Ne.symm h
    rw [List.find?_cons_of_neg (by simp [hne]), if_neg h, List.find?_filter]
    congr 2
    funext e
    by_cases he : e.1 = k' <;> simp [he, h]

/-- The entry of a list of pairs, for a key listed once, is the value listed with it. -/
theorem lookupKey_of_mem {W : List ((String × Nat) × ExprId)} (hW : (W.map Prod.fst).Nodup)
    {k : String × Nat} {d : ExprId} (hk : (k, d) ∈ W) : lookupKey W k = some d := by
  induction W with
  | nil => cases hk
  | cons e W ih =>
    obtain ⟨he, hW'⟩ := List.nodup_cons.1 hW
    unfold lookupKey
    rcases List.mem_cons.1 hk with rfl | hk
    · simp
    · have hek : e.1 ≠ k := fun h => he (h ▸ List.mem_map.2 ⟨_, hk, rfl⟩)
      rw [List.find?_cons_of_neg (by simpa using hek)]
      exact ih hW' hk

theorem lookupKey_append_of_ne (W : List ((String × Nat) × ExprId)) {k k' : String × Nat}
    (d : ExprId) (h : k' ≠ k) : lookupKey (W ++ [(k, d)]) k' = lookupKey W k' := by
  unfold lookupKey
  rw [List.find?_append]
  cases W.find? (·.1 == k') with
  | some _ => rfl
  | none => simp [Ne.symm h]

theorem lookupKey_eq_none_iff {W : List ((String × Nat) × ExprId)} {k : String × Nat} :
    lookupKey W k = none ↔ k ∉ W.map Prod.fst := by
  unfold lookupKey
  rw [Option.map_eq_none_iff, List.find?_eq_none, List.mem_map]
  constructor
  · rintro h ⟨e, he, rfl⟩
    exact h e he (by simp)
  · intro h e he hek
    exact h ⟨e, he, by simpa using hek⟩

theorem lookupKey_append_self (W : List ((String × Nat) × ExprId)) {k : String × Nat}
    (d : ExprId) (hk : k ∉ W.map Prod.fst) : lookupKey (W ++ [(k, d)]) k = some d := by
  have hW : W.find? (·.1 == k) = none := by
    simpa [lookupKey] using lookupKey_eq_none_iff.2 hk
  simp [lookupKey, List.find?_append, hW]

/-- The entry the table gives for a key is listed with it. -/
theorem mem_of_lookupKey {W : List ((String × Nat) × ExprId)} {k : String × Nat} {d : ExprId}
    (h : lookupKey W k = some d) : (k, d) ∈ W := by
  obtain ⟨e, he, rfl⟩ := Option.map_eq_some_iff.1 h
  have hk : e.1 = k := by simpa using List.find?_some he
  rw [← hk]
  exact List.mem_of_find?_eq_some he

/-! ### Where the passes start -/

/-- What the passes start from: every expression the walk visits is the root of a held tree,
    the walk meets none twice, no node has chains or is registered, and the container of implicit
    definitions is live and empty. -/
structure Unchained (r : Procedure) : Prop where
  trees : ∀ x ∈ r.linkOrder, ∃ t, r.Holds t ∧ t.root = x
  nodup : r.linkOrder.Nodup
  bare : ∀ x y, r.expr? x = some y → y.defLink = none ∧ y.uses = [] ∧ y.tracked = false
  uninit_live : (r.cntr? uninitContainer).isSome
  uninit : (r.cntrNode uninitContainer).stmts = []

/-- A procedure trimmed of its implicit definitions and its chains is where the passes start. -/
theorem Trimmed.unchained (hl : p.Linkable) (h : p.Trimmed q)
    (hq : (q.cntrNode uninitContainer).stmts = []) (hlive : (q.cntr? uninitContainer).isSome) :
    q.Unchained where
  trees x hx := by
    have hra := h.readsAlike hl
    obtain ⟨s, hs, e, he, hb⟩ := rootExpr_of_mem_linkOrder (hra.linkOrder hl ▸ hx)
    obtain ⟨t, ht, rfl⟩ := hl.trees s hs e he
    obtain ⟨u, hu, rfl⟩ := List.mem_map.1 (ht.mem_of_below hb)
    exact ⟨u, hra.holds (ht.sub hu) ⟨s, hs, _, he, hb⟩, rfl⟩
  nodup := (h.readsAlike hl).linkOrder hl ▸ hl.nodup
  bare x y hy := by
    obtain ⟨y₀, par, -, rfl⟩ := h.expr x y hy
    exact ⟨rfl, rfl, rfl⟩
  uninit_live := hlive
  uninit := hq

section Walk

variable (hr : r.Unchained)
include hr

/-- A site the walk visits is written alike wherever its tree is kept up to the chains. -/
theorem Unchained.locationKey_eq {x : ExprId} (hx : x ∈ r.linkOrder)
    (hq : ∀ y, y.index < r.exprs.size →
      (q.expr? y).map ExprNode.unlinked = (r.expr? y).map ExprNode.unlinked) :
    q.locationKey x = r.locationKey x := by
  obtain ⟨t, ht, rfl⟩ := hr.trees x hx
  exact ht.locationKey_eq fun y hy => hq y (ht.spans.index_lt hy)

theorem Unchained.keyOf_eq {x : ExprId} (hx : x ∈ r.linkOrder)
    (hq : ∀ y, y.index < r.exprs.size →
      (q.expr? y).map ExprNode.unlinked = (r.expr? y).map ExprNode.unlinked) :
    q.keyOf x = r.keyOf x := by
  obtain ⟨t, ht, rfl⟩ := hr.trees x hx
  exact ht.keyOf_eq fun y hy => hq y (ht.spans.index_lt hy)

end Walk

/-! ### The registering walk -/

/-- The registering walk has visited `l` from `r`: `q` is `r` with the definition sites of `l`
    registered, each with a place and subscript, and the table gives for each place and
    subscript the last of them. -/
structure Registered (r : Procedure) (l : List ExprId) (T : List ((String × Nat) × ExprId))
    (q : Procedure) : Prop where
  others : ∃ xs, q = { r with exprs := xs }
  size : q.exprs.size = r.exprs.size
  expr : ∀ x, q.expr? x = (r.expr? x).map fun y =>
    { y with tracked := decide (x ∈ l) && (y.isDef && y.isSite) }
  table : ∀ k, lookupKey T k = ((l.filter fun d => (r.node d).isDef && (r.node d).isSite).filter
    fun d => r.keyOf d == some k).getLast?
  keys : ∀ d ∈ l, (r.node d).isDef = true → (r.node d).isSite = true → (r.keyOf d).isSome

namespace Registered

theorem nil (hr : r.Unchained) : r.Registered [] [] r where
  others := ⟨r.exprs, rfl⟩
  size := rfl
  expr x := by
    cases hx : r.expr? x with
    | none => rfl
    | some y =>
      have hy := (hr.bare x y hx).2.2
      simp only [List.not_mem_nil, decide_false, Bool.false_and, Option.map_some]
      rw [← hy]
  table _ := rfl
  keys _ h := absurd h List.not_mem_nil

variable {n : ExprId} (h : r.Registered l T q)
include h

/-- The node at `x`, registered when it is a definition site already visited. -/
theorem node (x : ExprId) :
    q.node x = { r.node x with tracked := decide (x ∈ l) && ((r.node x).isDef && (r.node x).isSite) } := by
  unfold Procedure.node
  rw [h.expr x]
  cases r.expr? x with
  | none =>
    have hd : (default : ExprNode).isDef = false := rfl
    simp only [Option.map_none, Option.getD_none, hd, Bool.false_and, Bool.and_false]
    rfl
  | some y => rfl

theorem unlinked (x : ExprId) :
    (q.expr? x).map ExprNode.unlinked = (r.expr? x).map ExprNode.unlinked := by
  rw [h.expr x]
  cases r.expr? x <;> rfl

/-- Registering a definition site with a place and subscript. -/
theorem mark (hn : n ∉ l) (hd : (r.node n).isDef = true) (hs : (r.node n).isSite = true)
    {k : String × Nat} (hk : r.keyOf n = some k) :
    r.Registered (l ++ [n]) (setKey T k n) (q.modifyExpr n fun y => { y with tracked := true }) where
  others := by
    obtain ⟨xs, rfl⟩ := h.others
    exact ⟨_, rfl⟩
  size := by rw [size_modifyExpr, h.size]
  expr x := by
    rw [expr?_modifyExpr, h.expr x]
    by_cases hx : x = n
    · subst hx
      cases hy : r.expr? x with
      | none =>
        rw [node_of_expr?_eq_none _ hy] at hd
        cases hd
      | some y =>
        rw [node_of_expr? _ hy] at hd hs
        simp [hd, hs]
    · simp [hx]
  table k' := by
    rw [lookupKey_setKey, h.table, List.filter_append, List.filter_append]
    by_cases hk' : k' = k
    · subst hk'
      simp [hd, hs, hk]
    · simp [hd, hs, hk, Ne.symm hk', hk']
  keys d hd' hdd hds := by
    rcases List.mem_append.1 hd' with hd' | hd'
    · exact h.keys d hd' hdd hds
    · rw [List.mem_singleton.1 hd', hk]
      rfl

/-- Passing over anything but a definition site. -/
theorem skip (hn : ((r.node n).isDef && (r.node n).isSite) = false) :
    r.Registered (l ++ [n]) T q where
  others := h.others
  size := h.size
  expr x := by
    rw [h.expr x]
    by_cases hx : x = n
    · subst hx
      cases hy : r.expr? x with
      | none => rfl
      | some y =>
        rw [node_of_expr? _ hy] at hn
        simp [hn]
    · simp [hx]
  table k := by
    rw [h.table, List.filter_append]
    simp [hn]
  keys d hd hdd hds := by
    rcases List.mem_append.1 hd with hd | hd
    · exact h.keys d hd hdd hds
    · obtain rfl := List.mem_singleton.1 hd
      rw [hdd, hds] at hn
      cases hn

end Registered

/-! ### The linking walk -/

/-- The reads among `l`: the sites not in definition position. -/
def readsIn (r : Procedure) (l : List ExprId) : List ExprId :=
  l.filter fun u => !(r.node u).isDef && (r.node u).isSite

/-- The places and subscripts read in `l` but defined nowhere in the walk, in the order of their
    first reads. -/
def undefinedIn (r : Procedure) (l : List ExprId) : List (String × Nat) :=
  (((r.readsIn l).filterMap r.keyOf).filter fun k => (r.lastDef k).isNone).eraseDups

/-- The implicit definition a list of pairs names for a place and subscript. -/
def weakOf (W : List ((String × Nat) × ExprId)) (k : String × Nat) : ExprId :=
  (lookupKey W k).getD ⟨0⟩

theorem readsIn_append_of_read {u : ExprId} (hu : (!(r.node u).isDef && (r.node u).isSite) = true) :
    r.readsIn (l ++ [u]) = r.readsIn l ++ [u] := by
  simp [readsIn, List.filter_append, hu]

theorem readsIn_append_of_not_read {u : ExprId}
    (hu : (!(r.node u).isDef && (r.node u).isSite) = false) :
    r.readsIn (l ++ [u]) = r.readsIn l := by
  simp [readsIn, List.filter_append, hu]

/-- A read of a place and subscript adds it to those defined nowhere, unless it is defined or
    already read. -/
theorem undefinedIn_append_of_read {u : ExprId} {k : String × Nat}
    (hu : (!(r.node u).isDef && (r.node u).isSite) = true) (hk : r.keyOf u = some k) :
    r.undefinedIn (l ++ [u]) = r.undefinedIn l ++
      if (r.lastDef k).isNone ∧ k ∉ r.undefinedIn l then [k] else [] := by
  unfold undefinedIn
  rw [readsIn_append_of_read hu, List.filterMap_append, List.filter_append, List.eraseDups_append]
  congr 1
  set xs := ((r.readsIn l).filterMap r.keyOf).filter fun k => (r.lastDef k).isNone
  simp only [List.filterMap_cons, hk, List.filterMap_nil, List.mem_eraseDups]
  by_cases hd : (r.lastDef k).isNone <;> by_cases hm : k ∈ xs <;>
    simp [hd, hm, List.removeAll, List.eraseDups_cons]

theorem undefinedIn_append_of_not_read {u : ExprId}
    (hu : (!(r.node u).isDef && (r.node u).isSite) = false) :
    r.undefinedIn (l ++ [u]) = r.undefinedIn l := by
  rw [undefinedIn, undefinedIn, readsIn_append_of_not_read hu]

theorem weakOf_append_of_ne (W : List ((String × Nat) × ExprId)) {k k' : String × Nat}
    (d : ExprId) (h : k' ≠ k) : weakOf (W ++ [(k, d)]) k' = weakOf W k' := by
  rw [weakOf, weakOf, lookupKey_append_of_ne W d h]

/-- `d` is an implicit definition of the place and subscript `k` in `q`, newer than the first `n`
    nodes: marked weak, in definition position, a site of `k`, and the root of a held tree. -/
structure ImplicitDef (q : Procedure) (n : Nat) (k : String × Nat) (d : ExprId) : Prop where
  fresh : n ≤ d.index
  weak : (q.node d).weak = true
  isDef : (q.node d).isDef = true
  isSite : (q.node d).isSite = true
  key : q.keyOf d = some k
  tree : ∃ t, q.Holds t ∧ t.root = d

namespace ImplicitDef

variable {q' : Procedure} {n : Nat} {k : String × Nat} {d : ExprId}

theorem isLive (h : q.ImplicitDef n k d) : q.isLive d := by
  obtain ⟨t, ht, rfl⟩ := h.tree
  exact ht.spans.live t.root_mem_ids

/-- What the linking pass keeps keeps an implicit definition. -/
theorem adds (h : q.ImplicitDef n k d) (ha : q.Adds q') : q'.ImplicitDef n k d := by
  obtain ⟨t, ht, rfl⟩ := h.tree
  have hn := ha.node (ht.spans.index_lt t.root_mem_ids)
  obtain ⟨ht', hk⟩ := ha.holds ht
  exact ⟨h.fresh, (congrArg ExprNode.weak hn :).trans h.weak,
    (congrArg ExprNode.isDef hn :).trans h.isDef, (ExprNode.isSite_eq_of_unlinked hn).trans h.isSite,
    hk.trans h.key, ⟨t, ht', rfl⟩⟩

end ImplicitDef

/-- A statement writing `0` to a node newer than the first `n` nodes writes to one newer than
    fewer. -/
theorem WritesZero.mono {n n' : Nat} {d : ExprId} {s : StmtId} (hw : q.WritesZero n d s)
    (h : n' ≤ n) : q.WritesZero n' d s := by
  obtain ⟨a, z, w, t, hex, hka, hoa, hkz, ht, hroot, hn⟩ := hw.assign
  exact ⟨hw.live, hw.parent, hw.children, a, z, w, t, hex, hka, hoa, hkz, ht, hroot,
    fun y hy => h.trans (hn y hy)⟩

theorem isLive_of_isTracked {d : ExprId} (h : q.isTracked d = true) : q.isLive d := by
  unfold isTracked at h
  unfold isLive
  cases hd : q.expr? d <;> simp_all

theorem Unchained.index_lt (hr : r.Unchained) {x : ExprId} (hx : x ∈ r.linkOrder) :
    x.index < r.exprs.size := by
  obtain ⟨t, ht, rfl⟩ := hr.trees x hx
  exact ht.spans.index_lt t.root_mem_ids

theorem mem_of_mem_readsIn {x : ExprId} (hx : x ∈ r.readsIn l) : x ∈ l :=
  List.mem_of_mem_filter hx

theorem mem_siteDefs_of_lastDef {k : String × Nat} {d : ExprId} (h : r.lastDef k = some d) :
    d ∈ r.siteDefs :=
  List.mem_of_mem_filter (List.mem_of_getLast? h)

/-- A place and subscript read and defined nowhere is among those the walk makes up. -/
theorem mem_undefinedIn {x : ExprId} {k : String × Nat} (hx : x ∈ r.readsIn l)
    (hk : r.keyOf x = some k) (hd : r.lastDef k = none) : k ∈ r.undefinedIn l := by
  rw [undefinedIn, List.mem_eraseDups, List.mem_filter, List.mem_filterMap]
  exact ⟨⟨x, hx, hk⟩, by simp [hd]⟩

theorem Unchained.isLive (hr : r.Unchained) {x : ExprId} (hx : x ∈ r.linkOrder) : r.isLive x := by
  obtain ⟨t, ht, rfl⟩ := hr.trees x hx
  exact ht.spans.live t.root_mem_ids

/-- Whether a node is a site depends on its kind and subscript only. -/
theorem isSite_congr {x y : ExprNode} (hk : x.kind = y.kind)
    (hi : x.idx = y.idx) : x.isSite = y.isSite := by
  simp [ExprNode.isSite, ExprNode.isLocation, ExprNode.isReg, ExprNode.isDeref, hk, hi]

/-- An entry of the right list of a pointwise relation is related to one of the left. -/
theorem exists_mem_left_of_forall₂ {α β : Type} {R : α → β → Prop} {l₁ : List α} {l₂ : List β}
    (h : List.Forall₂ R l₁ l₂) {b : β} (hb : b ∈ l₂) : ∃ a ∈ l₁, R a b := by
  induction h with
  | nil => cases hb
  | cons hab _ ih =>
    rcases List.mem_cons.1 hb with rfl | hb
    · exact ⟨_, List.mem_cons_self, hab⟩
    · obtain ⟨a, ha, hr⟩ := ih hb
      exact ⟨a, List.mem_cons_of_mem _ ha, hr⟩

namespace Implicit

variable {u d : ExprId} {q₁ : Procedure} (hi : q.Implicit u d q₁)
include hi

theorem node_old {x : ExprId} (hx : x.index < q.exprs.size) : q₁.node x = q.node x := by
  rw [Procedure.node, Procedure.node, hi.kept x hx]

theorem isLive_def : q₁.isLive d := by
  obtain ⟨t, ht, rfl, -⟩ := hi.tree
  exact ht.spans.live t.root_mem_ids

/-- The new nodes have no chains. -/
theorem chains_new {x : ExprId} (hx : q.exprs.size ≤ x.index) :
    (q₁.node x).defLink = none ∧ (q₁.node x).uses = [] := by
  cases hy : q₁.expr? x with
  | none =>
    rw [node_of_expr?_eq_none _ hy]
    exact ⟨rfl, rfl⟩
  | some y =>
    obtain ⟨h1, h2, -⟩ := hi.plain x y hx hy
    rw [node_of_expr? _ hy]
    exact ⟨h1, h2⟩

/-- The registered definitions are the old ones and the new one. -/
theorem isTracked_iff (x : ExprId) :
    q₁.isTracked x = true ↔ (x.index < q.exprs.size ∧ q.isTracked x = true) ∨ x = d := by
  by_cases hx : x.index < q.exprs.size
  · have hne : x ≠ d := fun he => by
      have := hi.fresh
      rw [he] at hx
      omega
    simp only [isTracked, hi.kept x hx, hx, true_and, hne, or_false]
  · have hx' : q.exprs.size ≤ x.index := Nat.le_of_not_lt hx
    simp only [hx, false_and, false_or]
    cases hy : q₁.expr? x with
    | none =>
      have hne : x ≠ d := fun he => by
        have := hi.isLive_def
        rw [← he, isLive, hy] at this
        cases this
      simp [isTracked, hy, hne]
    | some y => simp [isTracked, hy, (hi.plain x y hx' hy).2.2]

end Implicit

/-- Linking the read `u` to its definition `d`: where the links and reader lists of `q` are those
    of the reads `l`, they become those of `l ++ [u]`. -/
theorem chains_linkUse {w : String × Nat → ExprId} {u d : ExprId}
    (hread : (!(r.node u).isDef && (r.node u).isSite) = true) (hdu : r.defOf w u = d)
    (hud : u ≠ d) (hu : q.isLive u) (hd : q.isLive d)
    (hlinks : ∀ x, (q.node x).defLink = if x ∈ r.readsIn l then some (r.defOf w x) else none)
    (huses : ∀ x, (q.node x).uses = (r.readsIn l).filter fun y => r.defOf w y == x) :
    (∀ x, ((q.linkUse u d).node x).defLink =
      if x ∈ r.readsIn (l ++ [u]) then some (r.defOf w x) else none) ∧
    ∀ x, ((q.linkUse u d).node x).uses =
      (r.readsIn (l ++ [u])).filter fun y => r.defOf w y == x := by
  rw [readsIn_append_of_read hread]
  refine ⟨fun x => ?_, fun x => ?_⟩
  · rw [node_linkUse hud hu hd]
    by_cases hxu : x = u
    · subst hxu
      simp [hdu]
    · by_cases hxd : x = d
      · subst hxd
        simp [hxu, hlinks]
      · simp [hxu, hxd, hlinks]
  · rw [node_linkUse hud hu hd, List.filter_append]
    by_cases hxu : x = u
    · subst hxu
      simp [huses, hdu, Ne.symm hud]
    · by_cases hxd : x = d
      · subst hxd
        simp [hxu, huses, hdu]
      · simp [hxu, hxd, huses, hdu, Ne.symm hxd]

/-- The linking walk has visited `l` from `r`, making the implicit definitions `W`, pairs of a
    place and subscript with its definition. The procedure `q` adds to `r`; the places made up are
    those read in `l` and defined nowhere, each once; the table gives the last definition of a
    place and subscript, or else the implicit one. Each implicit definition is new, and written
    `0` by a new statement of the container of implicit definitions, which lists them in order
    and nothing else new. Each read of `l` is linked to its definition and nothing else is linked;
    each definition lists the reads linked to it, in order; there are as many links as reads; the
    registered definitions are the definition sites and the implicit ones; and each read has a
    place and subscript. -/
structure Linked (r : Procedure) (l : List ExprId) (W : List ((String × Nat) × ExprId))
    (T : List ((String × Nat) × ExprId)) (n : Nat) (q : Procedure) : Prop where
  adds : r.Adds q
  keys : W.map Prod.fst = r.undefinedIn l
  keys_nodup : (W.map Prod.fst).Nodup
  table : ∀ k, lookupKey T k = (r.lastDef k).or (lookupKey W k)
  implicit : ∀ kd ∈ W, q.ImplicitDef r.exprs.size kd.1 kd.2
  uninit : List.Forall₂ (fun kd s => q.WritesZero r.exprs.size kd.2 s ∧ r.stmts.size ≤ s.index)
    W (q.cntrNode uninitContainer).stmts
  uninit_nodup : (q.cntrNode uninitContainer).stmts.Nodup
  uninit_live : (q.cntr? uninitContainer).isSome
  stmts_new : ∀ s, r.stmts.size ≤ s.index → (q.stmt? s).isSome →
    s ∈ (q.cntrNode uninitContainer).stmts
  links : ∀ x, (q.node x).defLink =
    if x ∈ r.readsIn l then some (r.defOf (weakOf W) x) else none
  uses : ∀ d, (q.node d).uses = (r.readsIn l).filter fun x => r.defOf (weakOf W) x == d
  count : n = (r.readsIn l).length
  tracked : ∀ d, q.isTracked d = true ↔ d ∈ r.siteDefs ∨ d ∈ W.map Prod.snd
  readKeys : ∀ x ∈ r.readsIn l, (r.keyOf x).isSome
  visited : l ⊆ r.linkOrder

namespace Linked

variable {W : List ((String × Nat) × ExprId)} {n : Nat} {u : ExprId}

/-- The linking walk starts from the registering walk's end, with nothing linked. -/
theorem start (hr : r.Unchained) (h : r.Registered r.linkOrder T q) : r.Linked [] [] T 0 q where
  adds := by
    obtain ⟨xs, rfl⟩ := h.others
    exact ⟨h.size.ge, fun x _ => h.unlinked x, le_rfl, fun _ _ => rfl, rfl, fun _ _ => rfl, rfl,
      rfl⟩
  keys := rfl
  keys_nodup := List.nodup_nil
  table k := by
    rw [h.table k]
    exact Option.or_none.symm
  implicit _ h := absurd h List.not_mem_nil
  uninit := by
    obtain ⟨xs, rfl⟩ := h.others
    rw [show ({ r with exprs := xs } : Procedure).cntrNode uninitContainer =
      r.cntrNode uninitContainer from rfl, hr.uninit]
    exact .nil
  uninit_nodup := by
    obtain ⟨xs, rfl⟩ := h.others
    rw [show ({ r with exprs := xs } : Procedure).cntrNode uninitContainer =
      r.cntrNode uninitContainer from rfl, hr.uninit]
    exact List.nodup_nil
  uninit_live := by
    obtain ⟨xs, rfl⟩ := h.others
    exact hr.uninit_live
  stmts_new s hs hl := by
    obtain ⟨xs, rfl⟩ := h.others
    obtain ⟨st, hst⟩ := Option.isSome_iff_exists.1 hl
    exact absurd (index_lt_of_stmt? (p := r) hst) (Nat.not_lt.2 hs)
  links x := by
    rw [h.node x]
    cases hx : r.expr? x with
    | none => simp [node_of_expr?_eq_none _ hx, readsIn]
    | some y => simp [node_of_expr? _ hx, (hr.bare x y hx).1, readsIn]
  uses d := by
    rw [h.node d]
    cases hd : r.expr? d with
    | none =>
      simp [node_of_expr?_eq_none _ hd, readsIn]
      rfl
    | some y => simp [node_of_expr? _ hd, (hr.bare d y hd).2.1, readsIn]
  count := rfl
  tracked d := by
    rw [isTracked, h.expr d, siteDefs, List.mem_filter]
    cases hd : r.expr? d with
    | none =>
      simp only [Option.map_none, Option.getD_none, Bool.false_eq_true, false_iff, not_or]
      refine ⟨fun hmem => ?_, by simp⟩
      obtain ⟨t, ht, rfl⟩ := hr.trees _ hmem.1
      have := ht.spans.live t.root_mem_ids
      rw [isLive, hd] at this
      cases this
    | some y =>
      simp [node_of_expr? _ hd]
  readKeys _ h := absurd h List.not_mem_nil
  visited := List.nil_subset _

variable (h : r.Linked l W T n q)
include h

/-- The definition a visited read is linked to is registered. -/
theorem tracked_defOf {x : ExprId} (hx : x ∈ r.readsIn l) :
    q.isTracked (r.defOf (weakOf W) x) = true := by
  obtain ⟨k, hk⟩ := Option.isSome_iff_exists.1 (h.readKeys x hx)
  rw [h.tracked]
  simp only [defOf, hk]
  cases hd : r.lastDef k with
  | some d => exact .inl (mem_siteDefs_of_lastDef hd)
  | none =>
    -- the place is read and defined nowhere, so it was made up
    have hkW : k ∈ W.map Prod.fst := h.keys ▸ mem_undefinedIn hx hk hd
    obtain ⟨kd, hkd, rfl⟩ := List.mem_map.1 hkW
    have hl : lookupKey W kd.1 = some kd.2 := lookupKey_of_mem h.keys_nodup hkd
    simp only [Option.getD_none, weakOf, hl, Option.getD_some]
    exact .inr (List.mem_map_of_mem hkd)

/-- The table names the definition a read of its place and subscript is linked to. -/
theorem defOf_eq {x d : ExprId} {k : String × Nat} (hk : r.keyOf x = some k)
    (hd : lookupKey T k = some d) : r.defOf (weakOf W) x = d := by
  rw [h.table k] at hd
  simp only [defOf, hk]
  cases hl : r.lastDef k with
  | some d' =>
    rw [hl, Option.some_or] at hd
    exact Option.some.inj hd
  | none =>
    rw [hl, Option.none_or] at hd
    simp [weakOf, hd]

/-- A new implicit definition of a place not yet made up changes no link already made. -/
theorem defOf_append {x d : ExprId} {k : String × Nat} (hx : x ∈ r.readsIn l)
    (hk : k ∉ W.map Prod.fst) : r.defOf (weakOf (W ++ [(k, d)])) x = r.defOf (weakOf W) x := by
  obtain ⟨k', hk'⟩ := Option.isSome_iff_exists.1 (h.readKeys x hx)
  simp only [defOf, hk']
  cases hl : r.lastDef k' with
  | some _ => rfl
  | none =>
    have hmem : k' ∈ W.map Prod.fst := h.keys ▸ mem_undefinedIn hx hk' hl
    simp only [Option.getD_none]
    exact weakOf_append_of_ne W d fun he => hk (he ▸ hmem)

/-- Registered definitions are live and in definition position. -/
theorem facts_of_tracked (hr : r.Unchained) {d : ExprId} (hd : q.isTracked d = true) :
    q.isLive d ∧ (q.node d).isDef = true := by
  refine ⟨isLive_of_isTracked hd, ?_⟩
  rcases (h.tracked d).1 hd with hd | hd
  · obtain ⟨hmem, hdef⟩ := List.mem_filter.1 hd
    have hn : (q.node d).isDef = (r.node d).isDef :=
      (congrArg ExprNode.isDef (h.adds.node (hr.index_lt hmem)) :)
    simp only [Bool.and_eq_true] at hdef
    exact hn.trans hdef.1
  · obtain ⟨kd, hkd, rfl⟩ := List.mem_map.1 hd
    exact (h.implicit kd hkd).isDef

/-- The definition the table names is registered. -/
theorem tracked_lookup {k : String × Nat} {d : ExprId} (hd : lookupKey T k = some d) :
    q.isTracked d = true := by
  rw [h.table k] at hd
  rw [h.tracked]
  cases hl : r.lastDef k with
  | some d' =>
    rw [hl, Option.some_or] at hd
    cases hd
    exact .inl (mem_siteDefs_of_lastDef hl)
  | none =>
    rw [hl, Option.none_or] at hd
    exact .inr (List.mem_map.2 ⟨_, mem_of_lookupKey hd, rfl⟩)

/-- A read whose place and subscript the table names: the definition named is registered, the
    read has no link yet, and linking it continues the walk. -/
theorem found (hr : r.Unchained) (hu : u ∈ r.linkOrder) (hul : u ∉ l)
    (hread : (!(r.node u).isDef && (r.node u).isSite) = true) {k : String × Nat}
    (hk : r.keyOf u = some k) {d : ExprId} (hd : lookupKey T k = some d) :
    q.isTracked d = true ∧ (q.node u).defLink = none ∧
      r.Linked (l ++ [u]) W T (n + 1) (q.linkUse u d) := by
  have htr := h.tracked_lookup hd
  obtain ⟨hlive_d, hdef_d⟩ := h.facts_of_tracked hr htr
  have hdef_u : (q.node u).isDef = false := by
    have hn : (q.node u).isDef = (r.node u).isDef :=
      (congrArg ExprNode.isDef (h.adds.node (hr.index_lt hu)) :)
    simp only [Bool.and_eq_true, Bool.not_eq_true'] at hread
    rw [hn, hread.1]
  have hud : u ≠ d := fun he => by rw [he, hdef_d] at hdef_u; cases hdef_u
  have hlink_u : (q.node u).defLink = none := by
    rw [h.links u, if_neg (mt mem_of_mem_readsIn hul)]
  obtain ⟨hlinks, huses⟩ := chains_linkUse hread (h.defOf_eq hk hd) hud
    (h.adds.isLive (hr.isLive hu)) hlive_d h.links h.uses
  refine ⟨htr, hlink_u, ?_⟩
  refine
    { adds := h.adds.trans (adds_linkUse u d)
      keys := ?_
      keys_nodup := h.keys_nodup
      table := h.table
      implicit := fun kd hkd => (h.implicit kd hkd).adds (adds_linkUse u d)
      uninit := h.uninit.imp fun _ _ hw => ⟨hw.1.adds (adds_linkUse u d), hw.2⟩
      uninit_nodup := h.uninit_nodup
      uninit_live := h.uninit_live
      stmts_new := h.stmts_new
      links := hlinks
      uses := huses
      count := ?_
      tracked := fun x => by rw [isTracked_linkUse]; exact h.tracked x
      readKeys := ?_
      visited := List.append_subset.2 ⟨h.visited, by simpa using hu⟩ }
  · -- the place is defined, or was made up already
    rw [undefinedIn_append_of_read hread hk, h.keys, if_neg, List.append_nil]
    rintro ⟨hnone, hnot⟩
    rw [h.table k, Option.isNone_iff_eq_none.1 hnone, Option.none_or] at hd
    exact hnot (h.keys ▸ List.mem_map.2 ⟨(k, d), mem_of_lookupKey hd, rfl⟩)
  · rw [readsIn_append_of_read hread, List.length_append, ← h.count]
    rfl
  · intro x hx
    rw [readsIn_append_of_read hread] at hx
    rcases List.mem_append.1 hx with hx | hx
    · exact h.readKeys x hx
    · rw [List.mem_singleton.1 hx, hk]
      rfl

/-- A read whose place and subscript the table lacks: an implicit definition made for it,
    recorded in the table and registered, and linking the read to it continues the walk. -/
theorem missing (hr : r.Unchained) (hu : u ∈ r.linkOrder) (hul : u ∉ l)
    (hread : (!(r.node u).isDef && (r.node u).isSite) = true) {k : String × Nat}
    (hk : r.keyOf u = some k) (hT : lookupKey T k = none) {d : ExprId} {q₁ : Procedure}
    (hi : q.Implicit u d q₁) :
    q₁.isTracked d = true ∧ (q₁.node u).defLink = none ∧
      r.Linked (l ++ [u]) (W ++ [(k, d)]) (setKey T k d) (n + 1) (q₁.linkUse u d) := by
  rw [h.table k, Option.or_eq_none_iff] at hT
  obtain ⟨hld, hWk⟩ := hT
  have hW : k ∉ W.map Prod.fst := lookupKey_eq_none_iff.1 hWk
  have hsz : r.exprs.size ≤ q.exprs.size := h.adds.size
  -- the reads visited and their definitions are older than the new definition
  have hold : ∀ x ∈ r.readsIn l, x.index < q.exprs.size := fun x hx =>
    (hr.index_lt (h.visited (List.mem_of_mem_filter hx))).trans_le hsz
  have hdefs : ∀ x ∈ r.readsIn l, (r.defOf (weakOf W) x).index < q.exprs.size := fun x hx =>
    index_lt_of_isLive (isLive_of_isTracked (h.tracked_defOf hx))
  have hW' : ∀ x ∈ r.readsIn l, r.defOf (weakOf (W ++ [(k, d)])) x = r.defOf (weakOf W) x :=
    fun x hx => h.defOf_append hx hW
  have hdu : r.defOf (weakOf (W ++ [(k, d)])) u = d := by
    simp [defOf, hk, hld, weakOf, lookupKey_append_self W d hW]
  have hud : u ≠ d := fun he => by
    have := hi.fresh
    have := hold u
    have := (hr.index_lt hu).trans_le hsz
    rw [he] at this
    omega
  have htr : q₁.isTracked d = true := (hi.isTracked_iff d).2 (.inr rfl)
  -- the links and reader lists once the new definition is recorded, before `u` is linked
  have hlinks₁ : ∀ x, (q₁.node x).defLink =
      if x ∈ r.readsIn l then some (r.defOf (weakOf (W ++ [(k, d)])) x) else none := by
    intro x
    by_cases hx : x.index < q.exprs.size
    · rw [hi.node_old hx, h.links x]
      split_ifs with hm
      · rw [hW' x hm]
      · rfl
    · rw [(hi.chains_new (Nat.le_of_not_lt hx)).1, if_neg fun hm => hx (hold x hm)]
  have huses₁ : ∀ x, (q₁.node x).uses =
      (r.readsIn l).filter fun y => r.defOf (weakOf (W ++ [(k, d)])) y == x := by
    intro x
    rw [List.filter_congr fun y hy => by rw [hW' y hy]]
    by_cases hx : x.index < q.exprs.size
    · rw [hi.node_old hx, h.uses x]
    · rw [(hi.chains_new (Nat.le_of_not_lt hx)).2, eq_comm, List.filter_eq_nil_iff]
      intro y hy hyx
      have hlt := hdefs y hy
      rw [beq_iff_eq.1 hyx] at hlt
      exact hx hlt
  have hlink_u : (q₁.node u).defLink = none := by
    rw [hlinks₁ u, if_neg (mt mem_of_mem_readsIn hul)]
  obtain ⟨hlinks, huses⟩ := chains_linkUse hread hdu hud
    (hi.adds.isLive (h.adds.isLive (hr.isLive hu))) hi.isLive_def hlinks₁ huses₁
  have hA : q.Adds (q₁.linkUse u d) := hi.adds.trans (adds_linkUse u d)
  refine ⟨htr, hlink_u, ?_⟩
  refine
    { adds := h.adds.trans hA
      keys := ?_
      keys_nodup := ?_
      table := ?_
      implicit := ?_
      uninit := ?_
      uninit_nodup := ?_
      uninit_live := hi.uninit_live
      stmts_new := ?_
      links := hlinks
      uses := huses
      count := ?_
      tracked := ?_
      readKeys := ?_
      visited := List.append_subset.2 ⟨h.visited, by simpa using hu⟩ }
  · rw [List.map_append, h.keys, undefinedIn_append_of_read hread hk,
      if_pos ⟨by simp [hld], h.keys ▸ hW⟩]
    rfl
  · rw [List.map_append]
    refine List.nodup_append.2 ⟨h.keys_nodup, List.nodup_singleton _, fun a ha b hb => ?_⟩
    rintro rfl
    simp only [List.map_cons, List.map_nil, List.mem_singleton] at hb
    exact hW (hb ▸ ha)
  · intro k'
    rw [lookupKey_setKey]
    by_cases hk' : k' = k
    · subst hk'
      rw [if_pos rfl, hld, Option.none_or, lookupKey_append_self W d hW]
    · rw [if_neg hk', h.table k', lookupKey_append_of_ne W d hk']
  · intro kd hkd
    rcases List.mem_append.1 hkd with hkd | hkd
    · exact (h.implicit kd hkd).adds hA
    · rw [List.mem_singleton.1 hkd]
      obtain ⟨t, ht, hroot, -⟩ := hi.tree
      have hsite : (q.node u).isSite = true :=
        (ExprNode.isSite_eq_of_unlinked (h.adds.node (hr.index_lt hu))).trans
          (Bool.and_eq_true_iff.1 hread).2
      refine ImplicitDef.adds ⟨hsz.trans hi.fresh, hi.weak, hi.isDef,
        (isSite_congr hi.kind hi.idx).trans hsite, ?_, t, ht, hroot⟩ (adds_linkUse u d)
      rw [hi.key, hr.keyOf_eq hu h.adds.expr, hk]
  · show List.Forall₂ _ _ (q₁.cntrNode uninitContainer).stmts
    rw [hi.uninit]
    exact List.rel_append (h.uninit.imp fun _ _ hw => ⟨hw.1.adds hA, hw.2⟩)
      (.cons ⟨(hi.writes.mono hsz).adds (adds_linkUse u d), h.adds.stmts_size⟩ .nil)
  · show (q₁.cntrNode uninitContainer).stmts.Nodup
    rw [hi.uninit]
    refine List.nodup_append.2 ⟨h.uninit_nodup, List.nodup_singleton _, fun a ha b hb => ?_⟩
    rw [List.mem_singleton.1 hb]
    -- an old statement of the container is live, the new one takes the first free number
    obtain ⟨kd, -, hw, -⟩ := exists_mem_left_of_forall₂ h.uninit ha
    obtain ⟨st, hst⟩ := Option.isSome_iff_exists.1 hw.live
    intro he
    have := index_lt_of_stmt? hst
    rw [he, freshStmt] at this
    exact Nat.lt_irrefl _ this
  · intro s hs hlive
    show s ∈ (q₁.cntrNode uninitContainer).stmts
    rw [hi.uninit, List.mem_append, List.mem_singleton]
    by_cases hsf : s = q.freshStmt
    · exact .inr hsf
    · left
      obtain ⟨st, hst⟩ := Option.isSome_iff_exists.1 hlive
      have hlt₁ : s.index < q₁.stmts.size := index_lt_of_stmt? hst
      have hlt : s.index < q.stmts.size := by
        rw [hi.stmts_size] at hlt₁
        refine lt_of_le_of_ne (Nat.lt_succ_iff.1 hlt₁) fun he => hsf ?_
        cases s
        simp only [freshStmt] at he ⊢
        rw [he]
      refine h.stmts_new s hs ?_
      rw [← hi.adds.stmt s hlt]
      exact hlive
  · rw [readsIn_append_of_read hread, List.length_append, ← h.count]
    rfl
  · intro x
    rw [isTracked_linkUse, hi.isTracked_iff, List.map_append, List.mem_append]
    simp only [List.map_cons, List.map_nil, List.mem_singleton]
    constructor
    · rintro (⟨-, hx⟩ | rfl)
      · rcases (h.tracked x).1 hx with h' | h'
        exacts [.inl h', .inr (.inl h')]
      · exact .inr (.inr rfl)
    · intro hx
      rcases hx with hx | hx | rfl
      · have htx := (h.tracked x).2 (.inl hx)
        exact .inl ⟨index_lt_of_isLive (isLive_of_isTracked htx), htx⟩
      · have htx := (h.tracked x).2 (.inr hx)
        exact .inl ⟨index_lt_of_isLive (isLive_of_isTracked htx), htx⟩
      · exact .inr rfl
  · intro x hx
    rw [readsIn_append_of_read hread] at hx
    rcases List.mem_append.1 hx with hx | hx
    · exact h.readKeys x hx
    · rw [List.mem_singleton.1 hx, hk]
      rfl

/-- Passing over anything but a read. -/
theorem skip (hu : u ∈ r.linkOrder) (hn : (!(r.node u).isDef && (r.node u).isSite) = false) :
    r.Linked (l ++ [u]) W T n q := by
  have hR := readsIn_append_of_not_read (l := l) hn
  exact { h with
    keys := by rw [undefinedIn_append_of_not_read hn, h.keys]
    links := by rw [hR]; exact h.links
    uses := by rw [hR]; exact h.uses
    count := by rw [hR]; exact h.count
    readKeys := by rw [hR]; exact h.readKeys
    visited := List.append_subset.2 ⟨h.visited, by simpa using hu⟩ }

end Linked

end Procedure

end Decompilation
