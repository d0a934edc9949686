import Mathlib
import Decompilation.Proofs.Structure.Nesting

/-!
# The listing of a procedure

Structuring moves statements into the bodies of the loops it builds, and the order it keeps
is that of the listing: the statements of the block containers, block after block, with each
loop replaced by the listing of its bodies, recursively. Every other statement, a conditional
included, stands for itself.

The listing is a relation, `Flat`, since the recursion goes down into bodies and a procedure
that hangs a statement below itself has none; on a well-formed procedure every list of
statements has exactly one.

* `StmtKind.isLoop`: the statements a listing opens;
* `Procedure.Flat`: a list of statements and its listing;
* `Procedure.Listing`: the listing of the whole procedure;
* `Flat.unique`, `Flat.exists_of_ranked`: a listing exists and is unique;
* `Flat.mem`: what a listing holds hangs from the statements listed;
* `Flat.frame`: a listing reads only the statements hanging from the ones listed;
* `Flat.filter`: leaving out statements that no statement encloses leaves them out of the
  listing.
-/

namespace Decompilation

namespace StmtKind

/-- Loops, tested at the start or at the end. -/
def isLoop : StmtKind → Bool
  | .whileLoop | .doWhile => true
  | _ => false

theorem isLoop_of_isJump {k : StmtKind} (h : k.isJump = true) : k.isLoop = false := by
  cases k <;> simp_all [isJump, isLoop]

end StmtKind

namespace Procedure

variable (p : Procedure)

/-- The statements of the bodies of `s`, body after body. -/
def bodyStmts (s : StmtId) : List StmtId :=
  (p.stmtNode s).children.flatMap fun b => (p.cntrNode b).stmts

/-- `p.Flat ss l`: `l` lists the statements `ss` in order, each loop replaced by the listing of
    its bodies. -/
inductive Flat : List StmtId → List StmtId → Prop
  | nil : Flat [] []
  | plain {s : StmtId} {ss l : List StmtId} : (p.stmtNode s).kind.isLoop = false →
      Flat ss l → Flat (s :: ss) (s :: l)
  | loop {s : StmtId} {ss l₁ l₂ : List StmtId} : (p.stmtNode s).kind.isLoop = true →
      Flat (p.bodyStmts s) l₁ → Flat ss l₂ → Flat (s :: ss) (l₁ ++ l₂)

/-- The statements of the block containers, block after block. -/
def blockStmts : List StmtId := p.blocks.flatMap fun b => (p.cntrNode b.container).stmts

/-- `l` is the listing of the procedure: its block statements, loops opened. -/
def Listing (l : List StmtId) : Prop := p.Flat p.blockStmts l

/-- The statements hanging from a list: its members and the statements they enclose. -/
def Hangs (ss : List StmtId) (s : StmtId) : Prop := ∃ t ∈ ss, t = s ∨ p.Encloses t s

variable {p}

/-- What a member of a body of `s` is or encloses, `s` encloses. -/
theorem encloses_of_mem_bodyStmts {s t x : StmtId} (ht : t ∈ p.bodyStmts s)
    (hx : t = x ∨ p.Encloses t x) : p.Encloses s x := by
  obtain ⟨b, hb, htb⟩ := List.mem_flatMap.1 ht
  rcases hx with rfl | ⟨b', hb', hw⟩
  · exact ⟨b, hb, .listed htb⟩
  · exact ⟨b, hb, Within.trans (.listed htb) hb' hw⟩

namespace Hangs

variable {ss : List StmtId} {s x : StmtId}

theorem cons (h : p.Hangs ss x) : p.Hangs (s :: ss) x :=
  let ⟨t, ht, hx⟩ := h
  ⟨t, List.mem_cons_of_mem s ht, hx⟩

theorem head : p.Hangs (s :: ss) s := ⟨s, List.mem_cons_self, .inl rfl⟩

theorem of_bodyStmts (h : p.Hangs (p.bodyStmts s) x) : p.Hangs (s :: ss) x :=
  let ⟨_, ht, hx⟩ := h
  ⟨s, List.mem_cons_self, .inr (encloses_of_mem_bodyStmts ht hx)⟩

end Hangs

namespace Flat

variable {ss ss₁ ss₂ l l' l₁ l₂ : List StmtId}

theorem append (h₁ : p.Flat ss₁ l₁) (h₂ : p.Flat ss₂ l₂) : p.Flat (ss₁ ++ ss₂) (l₁ ++ l₂) := by
  induction h₁ with
  | nil => exact h₂
  | plain hs _ ih => exact .plain hs ih
  | loop hs hb _ _ ih =>
    rw [List.append_assoc]
    exact .loop hs hb ih

theorem of_append (h : p.Flat (ss₁ ++ ss₂) l) :
    ∃ l₁ l₂, l = l₁ ++ l₂ ∧ p.Flat ss₁ l₁ ∧ p.Flat ss₂ l₂ := by
  induction ss₁ generalizing l with
  | nil => exact ⟨[], l, rfl, .nil, h⟩
  | cons s ss ih =>
    cases h with
    | plain hs h =>
      obtain ⟨l₁, l₂, rfl, h₁, h₂⟩ := ih h
      exact ⟨s :: l₁, l₂, rfl, .plain hs h₁, h₂⟩
    | loop hs hb h =>
      obtain ⟨l₁, l₂, rfl, h₁, h₂⟩ := ih h
      exact ⟨_ ++ l₁, l₂, (List.append_assoc _ _ _).symm, .loop hs hb h₁, h₂⟩

/-- A list of statements has one listing at most. -/
theorem unique (h : p.Flat ss l) (h' : p.Flat ss l') : l = l' := by
  induction h generalizing l' with
  | nil =>
    cases h'
    rfl
  | plain hs _ ih =>
    cases h' with
    | plain _ h' => rw [ih h']
    | loop hs' => simp [hs] at hs'
  | loop hs _ _ ihb ih =>
    cases h' with
    | plain hs' => simp [hs] at hs'
    | loop _ hb' h' => rw [ihb hb', ih h']

/-- Lists of statements that each have a listing, one after the other, have one. -/
theorem exists_of_forall (h : ∀ s ∈ ss, ∃ l, p.Flat [s] l) : ∃ l, p.Flat ss l := by
  induction ss with
  | nil => exact ⟨[], .nil⟩
  | cons s ss ih =>
    obtain ⟨l₁, h₁⟩ := h s List.mem_cons_self
    obtain ⟨l₂, h₂⟩ := ih fun t ht => h t (List.mem_cons_of_mem s ht)
    exact ⟨l₁ ++ l₂, h₁.append h₂⟩

/-- Where a rank falls from each statement to the statements of its bodies, every list of
    statements has a listing. -/
theorem exists_of_ranked {rank : StmtId → Nat}
    (hr : ∀ {t b s}, b ∈ (p.stmtNode t).children → s ∈ (p.cntrNode b).stmts → rank s < rank t)
    (ss : List StmtId) : ∃ l, p.Flat ss l := by
  -- by induction on a bound of the rank: the bodies of a loop rank lower than the loop
  have hone : ∀ n s, rank s < n → ∃ l, p.Flat [s] l := by
    intro n
    induction n with
    | zero => exact fun s hs => absurd hs (Nat.not_lt_zero _)
    | succ n ih =>
      intro s hs
      cases hk : (p.stmtNode s).kind.isLoop with
      | false => exact ⟨[s], .plain hk .nil⟩
      | true =>
        obtain ⟨l, hl⟩ : ∃ l, p.Flat (p.bodyStmts s) l := exists_of_forall fun t ht => ih t (by
          obtain ⟨b, hb, htb⟩ := List.mem_flatMap.1 ht
          have := hr hb htb
          omega)
        exact ⟨l ++ [], .loop hk hl .nil⟩
  exact exists_of_forall fun s _ => hone _ s (Nat.lt_succ_self _)

/-- What a listing holds hangs from the statements listed. -/
theorem mem (h : p.Flat ss l) {x : StmtId} (hx : x ∈ l) : p.Hangs ss x := by
  induction h with
  | nil => simp at hx
  | plain _ _ ih =>
    rcases List.mem_cons.1 hx with rfl | hx
    · exact .head
    · exact (ih hx).cons
  | loop _ _ _ ihb ih =>
    rcases List.mem_append.1 hx with hx | hx
    · exact (ihb hx).of_bodyStmts
    · exact (ih hx).cons

variable {q : Procedure}

/-- A listing stays one in a procedure where each statement hanging from those listed has the
    same kind and the same body statements. -/
theorem frame (h : p.Flat ss l)
    (hq : ∀ s, p.Hangs ss s →
      (q.stmtNode s).kind = (p.stmtNode s).kind ∧ q.bodyStmts s = p.bodyStmts s) :
    q.Flat ss l := by
  induction h with
  | nil => exact .nil
  | plain hs _ ih =>
    obtain ⟨hk, -⟩ := hq _ .head
    exact .plain (hk ▸ hs) (ih fun t ht => hq t ht.cons)
  | @loop s _ _ _ hs _ _ ihb ih =>
    obtain ⟨hk, hb⟩ := hq _ .head
    refine .loop (hk ▸ hs) ?_ (ih fun t ht => hq t ht.cons)
    rw [hb]
    exact ihb fun t ht => hq t ht.of_bodyStmts

/-- Leaving out statements that are not loops and that no statement encloses leaves them out
    of the listing. -/
theorem filter {P : StmtId → Bool}
    (hP : ∀ x, P x = false → (p.stmtNode x).kind.isLoop = false ∧ ∀ t, ¬p.Encloses t x)
    (h : p.Flat ss l) : p.Flat (ss.filter P) (l.filter P) := by
  induction h with
  | nil => exact .nil
  | @plain s _ _ hs _ ih =>
    cases hPs : P s
    · simpa [List.filter_cons, hPs] using ih
    · simpa [List.filter_cons, hPs] using Flat.plain hs ih
  | @loop s _ l₁ _ hs hb _ _ ih =>
    have hPs : P s = true := by
      by_contra hPs
      simp [(hP s (by simpa using hPs)).1] at hs
    -- what a loop's body lists is enclosed by the loop, so it stays
    have hkeep : l₁.filter P = l₁ := List.filter_eq_self.2 fun x hx => by
      obtain ⟨t, ht, htx⟩ := hb.mem hx
      by_contra hPx
      exact (hP x (by simpa using hPx)).2 s (encloses_of_mem_bodyStmts ht htx)
    rw [List.filter_cons_of_pos hPs, List.filter_append, hkeep]
    exact .loop hs hb ih

end Flat

end Procedure

end Decompilation
