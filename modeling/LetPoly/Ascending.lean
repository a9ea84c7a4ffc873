-- Ascending lists of numbers, as the sets that are listed in print and drawn
-- from in order.

namespace LetPoly.Ascending

/-- A number put in its place, unless it is there already. -/
def insert (v : Int) : List Int → List Int
  | [] => [v]
  | w :: rest => if v < w then v :: w :: rest else if v = w then w :: rest else w :: insert v rest

/-- The same numbers in ascending order, each once. -/
def ofList (vs : List Int) : List Int := vs.foldr insert []

/-! ## Laws -/

theorem mem_insert (v x : Int) (l : List Int) : x ∈ insert v l ↔ x = v ∨ x ∈ l := by
  induction l with
  | nil => simp [insert]
  | cons w rest ih =>
    unfold insert
    split
    · simp
    · split
      · rename_i h; subst h; simp
      · simp [ih]; grind

theorem mem_ofList (x : Int) (vs : List Int) : x ∈ ofList vs ↔ x ∈ vs := by
  induction vs with
  | nil => simp [ofList]
  | cons v rest ih =>
    have h : ofList (v :: rest) = insert v (ofList rest) := rfl
    rw [h, mem_insert, ih, List.mem_cons]

theorem pairwise_insert (v : Int) {l : List Int} (h : l.Pairwise (· < ·)) :
    (insert v l).Pairwise (· < ·) := by
  induction l with
  | nil => simp [insert]
  | cons w rest ih =>
    obtain ⟨hw, hr⟩ := List.pairwise_cons.1 h
    unfold insert
    split
    · rename_i hv
      refine List.pairwise_cons.2 ⟨fun x hx => ?_, h⟩
      rcases List.mem_cons.1 hx with rfl | hx
      · exact hv
      · exact Int.lt_trans hv (hw x hx)
    · split
      · exact h
      · refine List.pairwise_cons.2 ⟨fun x hx => ?_, ih hr⟩
        rcases (mem_insert v x rest).1 hx with rfl | hx
        · omega
        · exact hw x hx

/-- The list ascends. -/
theorem pairwise_ofList (vs : List Int) : (ofList vs).Pairwise (· < ·) := by
  induction vs with
  | nil => exact List.Pairwise.nil
  | cons v rest ih => exact pairwise_insert v ih

/-- No number stands in the list twice. -/
theorem nodup_ofList (vs : List Int) : (ofList vs).Nodup :=
  (pairwise_ofList vs).imp fun h => Int.ne_of_lt h

/-- A list without repetitions is no longer than a list that holds all its items. -/
theorem length_le_of_subset {l m : List Int} (hl : l.Nodup) (h : ∀ x ∈ l, x ∈ m) :
    l.length ≤ m.length := by
  induction l generalizing m with
  | nil => simp
  | cons x rest ih =>
    obtain ⟨hx, hr⟩ := List.nodup_cons.1 hl
    have hm : x ∈ m := h x (by simp)
    have hsub : ∀ y ∈ rest, y ∈ m.erase x := by
      intro y hy
      have hne : y ≠ x := by rintro rfl; exact hx hy
      exact (List.mem_erase_of_ne hne).2 (h y (by simp [hy]))
    have := ih hr hsub
    have := List.length_erase_of_mem hm
    have := List.length_pos_of_mem hm
    simp only [List.length_cons]
    omega

/-- Fewer numbers make a list that is no longer. -/
theorem length_ofList_le {vs ws : List Int} (h : ∀ x ∈ vs, x ∈ ws) :
    (ofList vs).length ≤ (ofList ws).length :=
  length_le_of_subset (nodup_ofList vs) fun x hx =>
    (mem_ofList x ws).2 (h x ((mem_ofList x vs).1 hx))

/-- A number missing makes the list shorter. -/
theorem length_ofList_lt {vs ws : List Int} {v : Int} (h : ∀ x ∈ vs, x ∈ ws) (hv : v ∈ ws)
    (hn : v ∉ vs) : (ofList vs).length < (ofList ws).length := by
  have hw : v ∈ ofList ws := (mem_ofList v ws).2 hv
  have hsub : ∀ x ∈ ofList vs, x ∈ (ofList ws).erase v := by
    intro x hx
    have hx := (mem_ofList x vs).1 hx
    have hne : x ≠ v := by rintro rfl; exact hn hx
    exact (List.mem_erase_of_ne hne).2 ((mem_ofList x ws).2 (h x hx))
  have := length_le_of_subset (nodup_ofList vs) hsub
  have := List.length_erase_of_mem hw
  have := List.length_pos_of_mem hw
  omega

end LetPoly.Ascending
