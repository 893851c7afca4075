import Mathlib.Data.List.Nodup

/-!
# Forests

A forest as its first tree — a node with the forest below it — and the trees after it.
`withAncestors` goes through it in preorder, and gives with every node the nodes above it,
the nearest first.

`mem_withAncestors_of_isPath` says that the nodes above a node are those of the path down to it, and
`ancestors_before` that a node comes after the nodes above it.
-/

namespace Octantis.Lib

universe u

/-- A forest. -/
inductive Forest (α : Type u) where
  /-- No tree. -/
  | nil
  /-- A tree, with the forest below its node, and the trees after it. -/
  | cons (a : α) (below after : Forest α)

namespace Forest

variable {α : Type u} {a : α} {p as bs : List α} {f : Forest α}

/-- The nodes in preorder. -/
def preorder : Forest α → List α
  | nil => []
  | cons a below after => a :: (preorder below ++ preorder after)

/-- The nodes in preorder, with the nodes above them. -/
def withAncestors (as : List α) : Forest α → List (α × List α)
  | nil => []
  | cons a below after => (a, as) :: (withAncestors (a :: as) below ++ withAncestors as after)

/-- The paths from the roots down. -/
inductive IsPath : Forest α → List α → Prop where
  /-- To a root. -/
  | root (a : α) (below after : Forest α) : IsPath (cons a below after) [a]
  /-- To a node below the first root. -/
  | down (a : α) {below : Forest α} (after : Forest α) {p : List α} (h : IsPath below p) :
    IsPath (cons a below after) (a :: p)
  /-- In the trees after the first. -/
  | next (a : α) (below : Forest α) {after : Forest α} {p : List α} (h : IsPath after p) :
    IsPath (cons a below after) p

theorem map_fst_withAncestors (as : List α) (f : Forest α) : (f.withAncestors as).map (·.1) = f.preorder := by
  induction f generalizing as with
  | nil => rfl
  | cons a below after ihBelow ihAfter =>
    rw [withAncestors, List.map_cons, List.map_append, ihBelow, ihAfter, preorder]

theorem IsPath.ne_nil (h : f.IsPath p) : p ≠ [] := by
  induction h with
  | root => exact List.cons_ne_nil _ _
  | down => exact List.cons_ne_nil _ _
  | next _ _ _ ih => exact ih

/-- **The nodes above a node** are those of the path down to it. -/
theorem mem_withAncestors_of_isPath (h : f.IsPath (p ++ [a])) (as : List α) :
    (a, p.reverse ++ as) ∈ f.withAncestors as := by
  induction f generalizing p as with
  | nil => cases h
  | cons b below after ihBelow ihAfter =>
    rw [withAncestors, List.mem_cons, List.mem_append]
    cases p with
    | nil =>
      cases h with
      | root => exact .inl rfl
      | down _ _ h => exact absurd rfl h.ne_nil
      | next _ _ h => exact .inr (.inr (ihAfter h as))
    | cons c p =>
      generalize hpath : c :: p ++ [a] = q at h
      cases h with
      | root => simp at hpath
      | down _ _ h =>
        obtain ⟨rfl, rfl⟩ := List.cons.inj hpath
        have hmem := ihBelow h (c :: as)
        rw [List.reverse_cons, List.append_assoc]
        exact .inr (.inl hmem)
      | next _ _ h =>
        rw [← hpath] at h
        exact .inr (.inr (ihAfter h as))

/-- A path goes down in the preorder. -/
theorem IsPath.sublist (h : f.IsPath p) : p.Sublist f.preorder := by
  induction h with
  | root a below after => exact List.Sublist.cons_cons a (List.nil_sublist _)
  | down a after _ ih => exact List.Sublist.cons_cons a (ih.trans (List.sublist_append_left _ _))
  | next a below _ ih => exact (ih.trans (List.sublist_append_right _ _)).cons a

/-- **The nodes above a node come before it.** -/
theorem ancestors_before {before after : List (α × List α)} {bs : List α}
    (h : f.withAncestors as = before ++ (a, bs) :: after) : ∀ b ∈ bs, b ∈ as ∨ b ∈ before.map (·.1) := by
  induction f generalizing as before after with
  | nil => simp [withAncestors] at h
  | cons c below rest ihBelow ihRest =>
    rw [withAncestors] at h
    rcases List.cons_eq_append_iff.mp h with ⟨rfl, hfirst⟩ | ⟨before', rfl, hsplit⟩
    · obtain ⟨hnode, -⟩ := List.cons.inj hfirst
      obtain ⟨-, rfl⟩ := Prod.mk.inj hnode
      exact fun b hb => .inl hb
    · rcases List.append_eq_append_iff.mp hsplit with ⟨middle, rfl, hrest⟩ | ⟨middle, hbelow, hrest⟩
      · -- the node is in the trees after the first
        intro b hb
        rcases ihRest hrest b hb with hb | hb
        · exact .inl hb
        · exact .inr (by simp [hb])
      · rcases List.cons_eq_append_iff.mp hrest with ⟨rfl, hfirst⟩ | ⟨middle', rfl, -⟩
        · have hstart : rest.withAncestors as = [] ++ (a, bs) :: after := hfirst
          intro b hb
          rcases ihRest hstart b hb with hb | hb
          · exact .inl hb
          · cases hb
        · -- it is below the first node
          intro b hb
          rcases ihBelow hbelow b hb with hb | hb
          · rcases List.mem_cons.mp hb with rfl | hb
            · exact .inr (by simp)
            · exact .inl hb
          · exact .inr (by simp [hb])

end Forest

end Octantis.Lib
