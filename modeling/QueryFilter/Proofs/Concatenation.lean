/-!
# Texts made of pieces

A predicate is written piece by piece.  Two such texts can be compared in the
same way if every piece of one is contained in its counterpart: since no piece
can make up for another, the texts agree only if all pieces do.

* `append_eq_append_iff`, `flatMap_eq_flatMap_iff` — two pieces, and many;
* `intercalate_cons` — pieces with a separator between them, as pieces that
  begin with it.
-/

namespace QueryFilter.Text

open scoped List

variable {α β : Type}

/-- Texts made of two pieces agree only if both pieces do. -/
theorem append_eq_append_iff {a a' b b' : List α} (ha : a <+ a') (hb : b <+ b') :
    a ++ b = a' ++ b' ↔ a = a' ∧ b = b' := by
  constructor
  · intro h
    have hlength := congrArg List.length h
    simp only [List.length_append] at hlength
    have hla := ha.length_le
    have hlb := hb.length_le
    exact ⟨ha.eq_of_length (by omega), hb.eq_of_length (by omega)⟩
  · rintro ⟨rfl, rfl⟩
    rfl

/-- What is made of the elements of a list is shorter where it is for each of them. -/
theorem flatMap_sublist {f g : β → List α} {xs : List β} (h : ∀ x ∈ xs, f x <+ g x) :
    xs.flatMap f <+ xs.flatMap g := by
  induction xs with
  | nil => exact List.nil_sublist _
  | cons x xs ih =>
      rw [List.flatMap_cons, List.flatMap_cons]
      exact (h x List.mem_cons_self).append (ih fun y hy => h y (List.mem_cons_of_mem _ hy))

/-- Texts made of many pieces agree only if all pieces do. -/
theorem flatMap_eq_flatMap_iff {f g : β → List α} {xs : List β} (h : ∀ x ∈ xs, f x <+ g x) :
    xs.flatMap f = xs.flatMap g ↔ ∀ x ∈ xs, f x = g x := by
  induction xs with
  | nil => simp
  | cons x xs ih =>
      have hx : f x <+ g x := h x List.mem_cons_self
      have hxs : ∀ y ∈ xs, f y <+ g y := fun y hy => h y (List.mem_cons_of_mem _ hy)
      rw [List.flatMap_cons, List.flatMap_cons, append_eq_append_iff hx (flatMap_sublist hxs),
        ih hxs, List.forall_mem_cons]

/-- Texts with a separator between the pieces, as one piece after another. -/
theorem intercalate_cons (sep x : List α) (xs : List (List α)) :
    sep.intercalate (x :: xs) = x ++ xs.flatMap fun y => sep ++ y := by
  induction xs generalizing x with
  | nil => simp
  | cons y ys ih =>
      rw [List.intercalate_cons_cons, ih, List.flatMap_cons]
      simp only [List.append_assoc]

/-- What is made of them is shorter with separators between, too. -/
theorem intercalate_map_sublist (sep : List α) {f g : β → List α} {xs : List β}
    (h : ∀ x ∈ xs, f x <+ g x) : sep.intercalate (xs.map f) <+ sep.intercalate (xs.map g) := by
  cases xs with
  | nil => exact List.Sublist.refl _
  | cons x xs =>
      have hrest : ∀ y ∈ xs, sep ++ f y <+ sep ++ g y := fun y hy =>
        (h y (List.mem_cons_of_mem _ hy)).append_left sep
      rw [List.map_cons, List.map_cons, intercalate_cons, intercalate_cons, List.flatMap_map,
        List.flatMap_map]
      exact (h x List.mem_cons_self).append (flatMap_sublist hrest)

/-- With separators between it is the same only where it is for each of them. -/
theorem intercalate_map_eq_iff (sep : List α) {f g : β → List α} {xs : List β}
    (h : ∀ x ∈ xs, f x <+ g x) :
    sep.intercalate (xs.map f) = sep.intercalate (xs.map g) ↔ ∀ x ∈ xs, f x = g x := by
  cases xs with
  | nil => simp
  | cons x xs =>
      have hx : f x <+ g x := h x List.mem_cons_self
      have hrest : ∀ y ∈ xs, sep ++ f y <+ sep ++ g y := fun y hy =>
        (h y (List.mem_cons_of_mem _ hy)).append_left sep
      rw [List.map_cons, List.map_cons, intercalate_cons, intercalate_cons, List.flatMap_map,
        List.flatMap_map, append_eq_append_iff hx (flatMap_sublist hrest),
        flatMap_eq_flatMap_iff hrest, List.forall_mem_cons]
      simp

end QueryFilter.Text
