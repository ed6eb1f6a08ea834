/-!
# Reading by precedence

A written expression is a row of leaves, operators and parentheses.  Operators
have ranks: one of a higher rank binds tighter, and operators of one rank
associate to the left.

There are two descriptions of what a row means.  `Derives` is the grammar, with
one rule per form of an expression.  `parse` is a reader that goes through the
row once and keeps, for every open parenthesis, the operators that still wait
for their right side.

* `Derives.run` — on a derivable row the reader ends with the expression,
  whatever waits around it;
* `State.Covers.step` — one step keeps account of every token read so far;
* `parse_eq_some_iff` — so the reader finds exactly what the grammar derives,
  and no row has two readings;
* `Derives.rank_iff`, `parse_append_leaf_iff` — how tight a row is bound is decided by its
  operators outside of parentheses, and so is whether it is one side of an operator behind it.
-/

namespace QueryFilter.Precedence

/-- A token of a written expression. -/
inductive Token (α ω : Type) where
  | leaf (a : α)
  | op (o : ω)
  | opening
  | closing
deriving DecidableEq, Repr

/-- An expression over leaves and two-sided operators. -/
inductive Expr (α ω : Type) where
  | leaf (a : α)
  | node (o : ω) (l r : Expr α ω)
deriving DecidableEq, Repr

variable {α ω β : Type}

/-- The value of an expression, given the values of leaves and what the
operators do. -/
def Expr.eval (leaf : α → β) (op : ω → β → β → β) : Expr α ω → β
  | .leaf a => leaf a
  | .node o l r => op o (l.eval leaf op) (r.eval leaf op)

/-- The leaves of a row, in order. -/
def leaves (ts : List (Token α ω)) : List α :=
  ts.filterMap fun
    | .leaf a => some a
    | _ => none

@[simp] theorem leaves_nil : leaves ([] : List (Token α ω)) = [] := rfl

@[simp] theorem leaves_leaf (a : α) (ts : List (Token α ω)) :
    leaves (.leaf a :: ts) = a :: leaves ts := rfl

@[simp] theorem leaves_op (o : ω) (ts : List (Token α ω)) :
    leaves (.op o :: ts) = leaves ts := rfl

@[simp] theorem leaves_opening (ts : List (Token α ω)) :
    leaves (.opening :: ts) = leaves ts := rfl

@[simp] theorem leaves_closing (ts : List (Token α ω)) :
    leaves (.closing :: ts) = leaves ts := rfl

/-- The leaves of two rows are those of one behind the other. -/
@[simp] theorem leaves_append (ts us : List (Token α ω)) :
    leaves (ts ++ us) = leaves ts ++ leaves us :=
  List.filterMap_append

/-- The leaves of a row are those that stand in it. -/
theorem mem_leaves {a : α} {ts : List (Token α ω)} : a ∈ leaves ts ↔ .leaf a ∈ ts := by
  induction ts with
  | nil => simp
  | cons t ts ih => cases t <;> simp [ih]

/-! ## The grammar -/

/-- `Derives rank p e ts`: the row `ts` writes `e`, and outside of parentheses
it has no operator of a rank below `p`. -/
inductive Derives (rank : ω → Nat) : Nat → Expr α ω → List (Token α ω) → Prop
  | leaf (p : Nat) (a : α) : Derives rank p (.leaf a) [.leaf a]
  | parens (p : Nat) {e : Expr α ω} {ts : List (Token α ω)}
      (h : Derives rank 0 e ts) : Derives rank p e (.opening :: ts ++ [.closing])
  | node {p : Nat} {o : ω} {l r : Expr α ω} {ts us : List (Token α ω)}
      (hp : p ≤ rank o) (hl : Derives rank (rank o) l ts)
      (hr : Derives rank (rank o + 1) r us) :
      Derives rank p (.node o l r) (ts ++ .op o :: us)

variable {rank : ω → Nat}

/-- What is derived for a rank is derived for every lower one. -/
theorem Derives.weaken {p q : Nat} {e : Expr α ω} {ts : List (Token α ω)}
    (h : Derives rank p e ts) (hq : q ≤ p) : Derives rank q e ts := by
  cases h with
  | leaf => exact .leaf q _
  | parens _ h => exact .parens q h
  | node hp hl hr => exact .node (Nat.le_trans hq hp) hl hr

/-- A derivable row has a leaf. -/
theorem Derives.leaves_ne_nil {p : Nat} {e : Expr α ω} {ts : List (Token α ω)}
    (h : Derives rank p e ts) : leaves ts ≠ [] := by
  induction h with
  | leaf => simp
  | parens p h ih => simpa using ih
  | node hp hl hr ihl ihr => simp [ihl]

/-- No expression is derived from an empty row. -/
theorem Derives.ne_nil {p : Nat} {e : Expr α ω} {ts : List (Token α ω)}
    (h : Derives rank p e ts) : ts ≠ [] := by
  rintro rfl
  exact h.leaves_ne_nil rfl

/-! ## The reader -/

/-- The operators that wait for their right side, the innermost first, each
with its left side. -/
abbrev Pending (α ω : Type) := List (Expr α ω × ω)

/-- Gives the waiting operators of rank `p` and above their right sides. -/
def reduce (rank : ω → Nat) (p : Nat) : Pending α ω → Expr α ω → Pending α ω × Expr α ω
  | [], e => ([], e)
  | (l, o) :: rest, e =>
      if p ≤ rank o then reduce rank p rest (.node o l e) else ((l, o) :: rest, e)

/-- Where the reader stands: what waits outside of the open parentheses and
inside of the innermost one, and the operand just read, if one was. -/
structure State (α ω : Type) where
  outer : List (Pending α ω)
  pending : Pending α ω
  operand? : Option (Expr α ω)

/-- Where reading starts. -/
def State.initial : State α ω := ⟨[], [], none⟩

/-- Reads one token. -/
def State.step (rank : ω → Nat) : State α ω → Token α ω → Option (State α ω)
  | ⟨outer, pending, none⟩, .leaf a => some ⟨outer, pending, some (.leaf a)⟩
  | ⟨outer, pending, none⟩, .opening => some ⟨pending :: outer, [], none⟩
  | ⟨outer, pending, some e⟩, .op o =>
      let (left, l) := reduce rank (rank o) pending e
      some ⟨outer, (l, o) :: left, none⟩
  | ⟨left :: outer, pending, some e⟩, .closing =>
      some ⟨outer, left, some (reduce rank 0 pending e).2⟩
  | _, _ => none

/-- The expression read, if the row may end here. -/
def State.result? (rank : ω → Nat) : State α ω → Option (Expr α ω)
  | ⟨[], pending, some e⟩ => some (reduce rank 0 pending e).2
  | _ => none

/-- Reads a row. -/
def State.run (rank : ω → Nat) : State α ω → List (Token α ω) → Option (State α ω)
  | s, [] => some s
  | s, t :: ts => (s.step rank t).bind fun s => s.run rank ts

/-- The expression that a row writes. -/
def parse (rank : ω → Nat) (ts : List (Token α ω)) : Option (Expr α ω) :=
  (State.initial.run rank ts).bind (State.result? rank)

/-- A row is read in two parts, one behind the other. -/
theorem State.run_append (s : State α ω) (ts us : List (Token α ω)) :
    s.run rank (ts ++ us) = (s.run rank ts).bind fun s => s.run rank us := by
  induction ts generalizing s with
  | nil => rfl
  | cons t ts ih =>
      rw [List.cons_append, run, run, Option.bind_assoc]
      exact congrArg _ (funext fun s => ih s)

/-- Operators below the rank asked for keep waiting. -/
theorem reduce_of_lt {p : Nat} {pending : Pending α ω} (h : ∀ x ∈ pending, rank x.2 < p)
    (e : Expr α ω) : reduce rank p pending e = (pending, e) := by
  cases pending with
  | nil => rfl
  | cons x rest =>
      have hx : ¬p ≤ rank x.2 := Nat.not_le_of_lt (h x List.mem_cons_self)
      exact if_neg hx

/-- Reducing for every operator leaves none. -/
theorem reduce_zero (pending : Pending α ω) (e : Expr α ω) :
    (reduce rank 0 pending e).1 = [] := by
  induction pending generalizing e with
  | nil => rfl
  | cons x rest ih => simpa [reduce] using ih (.node x.2 x.1 e)

/-- **The reader follows the grammar.**  After a derivable row the operators
that waited before still wait, perhaps with some of the row's own above them;
for every operator that may come next, the two make the same operand. -/
theorem Derives.run {p : Nat} {e : Expr α ω} {ts : List (Token α ω)}
    (h : Derives rank p e ts) (outer : List (Pending α ω)) (pending : Pending α ω)
    (hlow : ∀ x ∈ pending, rank x.2 < p) :
    ∃ pending' e', State.run rank ⟨outer, pending, none⟩ ts =
        some ⟨outer, pending', some e'⟩ ∧
      ∀ q ≤ p, reduce rank q pending' e' = reduce rank q pending e := by
  induction h generalizing outer pending with
  | leaf p a => exact ⟨pending, .leaf a, rfl, fun q _ => rfl⟩
  | @parens p e ts h ih =>
      obtain ⟨inner, e', hrun, hsame⟩ := ih (pending :: outer) [] (by simp)
      have hclosed : (reduce rank 0 inner e').2 = e := by
        rw [hsame 0 (Nat.le_refl 0)]
        rfl
      refine ⟨pending, e, ?_, fun q _ => rfl⟩
      calc State.run rank ⟨outer, pending, none⟩ (.opening :: ts ++ [.closing])
          = State.run rank ⟨pending :: outer, [], none⟩ (ts ++ [.closing]) := rfl
        _ = State.run rank ⟨pending :: outer, inner, some e'⟩ [.closing] := by
            rw [State.run_append, hrun]
            rfl
        _ = some ⟨outer, pending, some (reduce rank 0 inner e').2⟩ := rfl
        _ = some ⟨outer, pending, some e⟩ := by rw [hclosed]
  | @node p o l r ts us hp hl hr ihl ihr =>
      have hlowl : ∀ x ∈ pending, rank x.2 < rank o :=
        fun x hx => Nat.lt_of_lt_of_le (hlow x hx) hp
      have hlowr : ∀ x ∈ (l, o) :: pending, rank x.2 < rank o + 1 := by
        intro x hx
        rcases List.mem_cons.mp hx with rfl | hx
        · exact Nat.lt_succ_self _
        · exact Nat.lt_succ_of_lt (hlowl x hx)
      obtain ⟨left, l', hleft, hsamel⟩ := ihl outer pending hlowl
      obtain ⟨right, r', hright, hsamer⟩ := ihr outer ((l, o) :: pending) hlowr
      -- the operator takes exactly the left side, since all that waited is lower
      have hoperator : reduce rank (rank o) left l' = (pending, l) := by
        rw [hsamel (rank o) (Nat.le_refl _), reduce_of_lt hlowl]
      refine ⟨right, r', ?_, ?_⟩
      · calc State.run rank ⟨outer, pending, none⟩ (ts ++ .op o :: us)
            = State.run rank ⟨outer, left, some l'⟩ (.op o :: us) := by
              rw [State.run_append, hleft]
              rfl
          _ = State.run rank ⟨outer, ((reduce rank (rank o) left l').2, o) ::
                (reduce rank (rank o) left l').1, none⟩ us := rfl
          _ = some ⟨outer, right, some r'⟩ := by rw [hoperator, hright]
      · intro q hq
        have hqo : q ≤ rank o := Nat.le_trans hq hp
        rw [hsamer q (Nat.le_succ_of_le hqo), reduce, if_pos hqo]

/-- What derives from a row is what it is read as. -/
theorem parse_of_derives {e : Expr α ω} {ts : List (Token α ω)}
    (h : Derives rank 0 e ts) : parse rank ts = some e := by
  obtain ⟨pending, e', hrun, hsame⟩ := h.run [] [] (by simp)
  rw [parse, State.initial, hrun]
  show some (reduce rank 0 pending e').2 = some e
  rw [hsame 0 (Nat.le_refl 0)]
  rfl

/-! ## What has been read -/

/-- `Awaits pending ts`: the row `ts` leaves `pending` waiting inside of one
pair of parentheses. -/
inductive Awaits (rank : ω → Nat) : Pending α ω → List (Token α ω) → Prop
  | nil : Awaits rank [] []
  | cons {pending : Pending α ω} {l : Expr α ω} {o : ω} {ts us : List (Token α ω)}
      (hlow : ∀ x ∈ pending, rank x.2 < rank o) (h : Awaits rank pending ts)
      (hl : Derives rank (rank o) l us) :
      Awaits rank ((l, o) :: pending) (ts ++ us ++ [.op o])

/-- `Opens outer ts`: the row `ts` ends with an open parenthesis and leaves
`outer` waiting outside of it. -/
inductive Opens (rank : ω → Nat) : List (Pending α ω) → List (Token α ω) → Prop
  | nil : Opens rank [] []
  | cons {outer : List (Pending α ω)} {pending : Pending α ω} {ts us : List (Token α ω)}
      (h : Opens rank outer ts) (hp : Awaits rank pending us) :
      Opens rank (pending :: outer) (ts ++ us ++ [.opening])

/-- The operand just read, if one was, with the tokens that write it.  It is a
leaf or stands in parentheses, so it may be a side of any operator. -/
def Reads (rank : ω → Nat) : Option (Expr α ω) → List (Token α ω) → Prop
  | none, ts => ts = []
  | some e, ts => ∀ p, Derives rank p e ts

/-- A state accounts for every token read. -/
def State.Covers (rank : ω → Nat) (s : State α ω) (ts : List (Token α ω)) : Prop :=
  ∃ us vs ws, Opens rank s.outer us ∧ Awaits rank s.pending vs ∧
    Reads rank s.operand? ws ∧ ts = us ++ vs ++ ws

/-- Reducing joins what waited and the operand to an operand of the rank asked
for, and no token is lost. -/
theorem Awaits.reduce {pending : Pending α ω} {ts us : List (Token α ω)} {e : Expr α ω}
    {p r : Nat} (h : Awaits rank pending ts) (he : Derives rank r e us)
    (hlow : ∀ x ∈ pending, rank x.2 < r) (hp : p ≤ r) :
    ∃ vs ws, Awaits rank (reduce rank p pending e).1 vs ∧
      Derives rank p (reduce rank p pending e).2 ws ∧
      (∀ x ∈ (Precedence.reduce rank p pending e).1, rank x.2 < p) ∧ ts ++ us = vs ++ ws := by
  induction h generalizing e us r with
  | nil => exact ⟨[], us, .nil, he.weaken hp, by simp [Precedence.reduce], rfl⟩
  | @cons pending l o ts vs hlow' h hl ih =>
      by_cases hpo : p ≤ rank o
      · have ho : rank o + 1 ≤ r := hlow (l, o) List.mem_cons_self
        have hnode : Derives rank (rank o) (.node o l e) (vs ++ .op o :: us) :=
          .node (Nat.le_refl _) hl (he.weaken ho)
        obtain ⟨xs, ys, hx, hy, hrest, heq⟩ := ih hnode hlow' hpo
        rw [Precedence.reduce, if_pos hpo]
        refine ⟨xs, ys, hx, hy, hrest, ?_⟩
        rw [← heq]
        simp
      · rw [Precedence.reduce, if_neg hpo]
        refine ⟨_, us, .cons hlow' h hl, he.weaken hp, ?_, rfl⟩
        intro x hx
        rcases List.mem_cons.mp hx with rfl | hx
        · exact Nat.lt_of_not_le hpo
        · exact Nat.lt_trans (hlow' x hx) (Nat.lt_of_not_le hpo)

/-- Some rank is above all that waits. -/
theorem exists_above (rank : ω → Nat) (p : Nat) (pending : Pending α ω) :
    ∃ r, p ≤ r ∧ ∀ x ∈ pending, rank x.2 < r := by
  induction pending with
  | nil => exact ⟨p, Nat.le_refl p, by simp⟩
  | cons x rest ih =>
      obtain ⟨r, hp, hrest⟩ := ih
      refine ⟨r + rank x.2 + 1, by omega, ?_⟩
      intro y hy
      rcases List.mem_cons.mp hy with rfl | hy
      · omega
      · have := hrest y hy
        omega

/-- After an operand that may be a side of any operator, reducing for rank `p`
makes an operand of rank `p`. -/
theorem Awaits.reduce_operand {pending : Pending α ω} {ts us : List (Token α ω)}
    {e : Expr α ω} (h : Awaits rank pending ts) (he : Reads rank (some e) us) (p : Nat) :
    ∃ vs ws, Awaits rank (Precedence.reduce rank p pending e).1 vs ∧
      Derives rank p (Precedence.reduce rank p pending e).2 ws ∧
      (∀ x ∈ (Precedence.reduce rank p pending e).1, rank x.2 < p) ∧ ts ++ us = vs ++ ws := by
  obtain ⟨r, hp, hlow⟩ := exists_above rank p pending
  exact h.reduce (he r) hlow hp

/-- At the end of parentheses everything inside is one expression. -/
theorem Awaits.close {pending : Pending α ω} {ts us : List (Token α ω)} {e : Expr α ω}
    (h : Awaits rank pending ts) (he : Reads rank (some e) us) :
    Derives rank 0 (Precedence.reduce rank 0 pending e).2 (ts ++ us) := by
  obtain ⟨vs, ws, hvs, hws, -, heq⟩ := h.reduce_operand he 0
  rw [reduce_zero] at hvs
  cases hvs
  rw [heq]
  exact hws

/-- **One step accounts for the token it reads.** -/
theorem State.Covers.step {s s' : State α ω} {ts : List (Token α ω)} {t : Token α ω}
    (h : s.Covers rank ts) (hstep : s.step rank t = some s') :
    s'.Covers rank (ts ++ [t]) := by
  obtain ⟨outer, pending, operand?⟩ := s
  obtain ⟨us, vs, ws, hus, hvs, hws, rfl⟩ := h
  cases operand? with
  | none =>
      cases hws
      cases t with
      | leaf a =>
          cases hstep
          exact ⟨us, vs, [.leaf a], hus, hvs, fun p => .leaf p a, by simp⟩
      | opening =>
          cases hstep
          exact ⟨us ++ vs ++ [.opening], [], [], .cons hus hvs, .nil, rfl, by simp⟩
      | op o => cases hstep
      | closing => cases outer <;> cases hstep
  | some e =>
      cases t with
      | leaf a => cases hstep
      | opening => cases hstep
      | op o =>
          cases hstep
          obtain ⟨xs, ys, hxs, hys, hlow, heq⟩ := hvs.reduce_operand hws (rank o)
          refine ⟨us, xs ++ ys ++ [.op o], [], hus, .cons hlow hxs hys, rfl, ?_⟩
          rw [List.append_assoc us, heq]
          simp
      | closing =>
          cases outer with
          | nil => cases hstep
          | cons left outer =>
              cases hstep
              cases hus with
              | @cons _ _ xs ys hxs hys =>
                  refine ⟨xs, ys, .opening :: (vs ++ ws) ++ [.closing], hxs, hys,
                    fun p => .parens p (hvs.close hws), ?_⟩
                  simp

/-- A whole run accounts for every token of its row. -/
theorem State.Covers.run {s s' : State α ω} {ts us : List (Token α ω)}
    (h : s.Covers rank ts) (hrun : s.run rank us = some s') :
    s'.Covers rank (ts ++ us) := by
  induction us generalizing s ts with
  | nil =>
      cases hrun
      simpa using h
  | cons u us ih =>
      obtain ⟨middle, hstep, hrest⟩ := Option.bind_eq_some_iff.mp hrun
      simpa using ih (h.step hstep) hrest

/-- What a row is read as derives from it. -/
theorem derives_of_parse {e : Expr α ω} {ts : List (Token α ω)}
    (h : parse rank ts = some e) : Derives rank 0 e ts := by
  obtain ⟨s, hrun, hresult⟩ := Option.bind_eq_some_iff.mp h
  have hstart : State.Covers rank (State.initial : State α ω) [] :=
    ⟨[], [], [], .nil, .nil, rfl, rfl⟩
  have hcovers : s.Covers rank ts := hstart.run hrun
  obtain ⟨outer, pending, operand?⟩ := s
  obtain ⟨us, vs, ws, hus, hvs, hws, rfl⟩ := hcovers
  cases operand? with
  | none => cases outer <;> cases hresult
  | some e' =>
      cases outer with
      | cons left outer => cases hresult
      | nil =>
          cases hresult
          cases hus
          exact hvs.close hws

/-- **The reader finds exactly what the grammar derives.** -/
theorem parse_eq_some_iff {e : Expr α ω} {ts : List (Token α ω)} :
    parse rank ts = some e ↔ Derives rank 0 e ts :=
  ⟨derives_of_parse, parse_of_derives⟩

/-! ## Chains -/

/-- Some expressions with one operator between them, joined from the left. -/
def Expr.chain (o : ω) (e : Expr α ω) (es : List (Expr α ω)) : Expr α ω :=
  es.foldl (.node o) e

/-- **A chain needs no parentheses** if no side after the first has an operator
of its rank outside of parentheses. -/
theorem Derives.chain {ι : Type} {o : ω} {e : Expr α ω} {ts : List (Token α ω)}
    (expr : ι → Expr α ω) (tokens : ι → List (Token α ω))
    (h : Derives rank (rank o) e ts) (xs : List ι)
    (hxs : ∀ x ∈ xs, Derives rank (rank o + 1) (expr x) (tokens x)) :
    Derives rank (rank o) (.chain o e (xs.map expr))
      (ts ++ xs.flatMap fun x => .op o :: tokens x) := by
  induction xs generalizing e ts with
  | nil => simpa [Expr.chain] using h
  | cons x xs ih =>
      have hfirst : Derives rank (rank o) (.node o e (expr x)) (ts ++ .op o :: tokens x) :=
        .node (Nat.le_refl _) h (hxs x List.mem_cons_self)
      simpa [Expr.chain] using ih hfirst fun y hy => hxs y (List.mem_cons_of_mem _ hy)

/-! ## Operators outside of parentheses -/

/-- The operators that stand outside of all parentheses in a row with `depth` open ones before
it. -/
def outermost : Nat → List (Token α ω) → List ω
  | _, [] => []
  | depth, .leaf _ :: ts => outermost depth ts
  | depth, .op o :: ts => if depth = 0 then o :: outermost depth ts else outermost depth ts
  | depth, .opening :: ts => outermost (depth + 1) ts
  | depth, .closing :: ts => outermost (depth - 1) ts

/-- Inside of parentheses a derivable row shows no operator, and closes all that it opens. -/
theorem Derives.outermost_inside {p : Nat} {e : Expr α ω} {ts : List (Token α ω)}
    (h : Derives rank p e ts) (depth : Nat) (us : List (Token α ω)) :
    outermost (depth + 1) (ts ++ us) = outermost (depth + 1) us := by
  induction h generalizing depth us with
  | leaf p a => rfl
  | parens p h ih =>
      rw [List.append_assoc, List.cons_append]
      exact ih (depth + 1) (.closing :: us)
  | @node p o l r ts vs hp hl hr ihl ihr =>
      rw [List.append_assoc, ihl]
      exact ihr depth us

/-- Between two parentheses nothing stands outermost. -/
theorem Derives.outermost_parens {p : Nat} {e : Expr α ω} {ts : List (Token α ω)}
    (h : Derives rank p e ts) (depth : Nat) (us : List (Token α ω)) :
    outermost depth (.opening :: ts ++ .closing :: us) = outermost depth us :=
  h.outermost_inside depth (.closing :: us)

/-- The outermost operators of rows one after another. -/
theorem Derives.outermost_append {p : Nat} {e : Expr α ω} {ts : List (Token α ω)}
    (h : Derives rank p e ts) (us : List (Token α ω)) :
    outermost 0 (ts ++ us) = outermost 0 ts ++ outermost 0 us := by
  induction h generalizing us with
  | leaf p a => rfl
  | parens p h ih =>
      rw [List.append_assoc, h.outermost_parens 0 []]
      exact h.outermost_parens 0 us
  | @node p o l r ts vs hp hl hr ihl ihr =>
      rw [List.append_assoc, ihl, ihl, List.append_assoc]
      exact congrArg (outermost 0 ts ++ o :: ·) (ihr us)

/-- **A row is derived for the ranks that its outermost operators have.** -/
theorem Derives.rank_iff {p q : Nat} {e : Expr α ω} {ts : List (Token α ω)}
    (h : Derives rank q e ts) : Derives rank p e ts ↔ ∀ o ∈ outermost 0 ts, p ≤ rank o := by
  constructor
  · intro hp
    clear h
    induction hp with
    | leaf p a => exact List.forall_mem_nil _
    | parens p h ih =>
        rw [h.outermost_parens 0 []]
        exact List.forall_mem_nil _
    | @node p o l r ts us hp hl hr ihl ihr =>
        rw [hl.outermost_append]
        intro o' ho'
        rcases List.mem_append.mp ho' with hleft | hright
        · exact Nat.le_trans hp (ihl o' hleft)
        · rcases List.mem_cons.mp hright with rfl | hright
          · exact hp
          · exact Nat.le_trans hp (Nat.le_of_succ_le (ihr o' hright))
  · intro hp
    cases h with
    | leaf => exact .leaf p _
    | parens _ h => exact .parens p h
    | @node q o l r ts us hq hl hr =>
        have ho : o ∈ outermost 0 (ts ++ .op o :: us) := by
          rw [hl.outermost_append]
          exact List.mem_append_right _ List.mem_cons_self
        exact .node (hp o ho) hl hr

/-- A row with one more operator and a leaf behind it. -/
theorem parse_append_leaf_iff {e : Expr α ω} {ts : List (Token α ω)} (h : Derives rank 0 e ts)
    (o : ω) (a : α) :
    parse rank (ts ++ [.op o, .leaf a]) = some (.node o e (.leaf a)) ↔
      ∀ o' ∈ outermost 0 ts, rank o ≤ rank o' := by
  rw [parse_eq_some_iff, ← h.rank_iff]
  constructor
  · intro hnode
    generalize hrow : ts ++ [.op o, .leaf a] = row at hnode
    have hlast : row.getLast? = some (.leaf a) := by simp [← hrow]
    cases hnode with
    | parens _ h =>
        rw [List.getLast?_concat] at hlast
        cases hlast
    | @node _ _ _ _ us vs _ hl hr =>
        cases hr with
        | parens _ h =>
            rw [List.append_cons, ← List.append_assoc, List.getLast?_concat] at hlast
            cases hlast
        | leaf =>
            obtain ⟨rfl, -⟩ := List.append_inj' hrow rfl
            exact hl
  · exact fun hleft => .node (Nat.zero_le _) hleft (.leaf _ a)
end QueryFilter.Precedence
