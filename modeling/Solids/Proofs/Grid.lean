import Solids.Proofs.Area
/-!
# Solids.Proofs.Grid

**Surfaces made of slices and layers.** The corners of a round shape are numbered by slices, which
go round, and by layers, which go from pole to pole. A cell has four corners, or three at a pole.
Whether the cells close up is a matter of which numbers stand for the same corner, and of nothing
else; so the corners are of any type here.

Main definitions:

* `Grid.cell` — the outline of a cell;
* `Grid.Arranges` — some outlines are those of all the cells;
* `Grid.seam` — the edges at which the last slice meets the first one, and those at the poles;
* `Grid.ClosesUp` — the last slice ends where the first one begins, each pole is one corner, and
  no other corners coincide;
* `IsBalanced` — every step is taken as often as the step back.

Main statements:

* `Grid.Arranges.isBalanced_iff` — the edges of all cells are balanced when those of the seam are;
* `Grid.ClosesUp.isBalanced_seam` — a grid that closes up has a balanced seam;
* `Grid.Arranges.nodup`, `Grid.Arranges.pairwise_disjoint` — its cells have neither a corner nor an
  edge twice.
-/

namespace Solids

/-! ### Steps and steps back -/

section Balance

variable {α β : Type} [DecidableEq α] [DecidableEq β] {e : α × α} {l r : List (α × α)}

/-- Every step is taken as often as the step back. -/
def IsBalanced (l : List (α × α)) : Prop := ∀ e : α × α, l.count e = l.count e.swap

/-- How much more often a step is taken than the step back. -/
def surplus (e : α × α) (l : List (α × α)) : ℤ := l.count e - l.count e.swap

theorem isBalanced_iff : IsBalanced l ↔ ∀ e, surplus e l = 0 := by
  refine forall_congr' fun e => ?_
  rw [surplus, sub_eq_zero, Nat.cast_inj]

/-- Of a balanced list no step is without a step back. -/
theorem IsBalanced.swap_mem (h : IsBalanced l) (he : e ∈ l) : e.swap ∈ l := by
  have hpos : 0 < l.count e := List.count_pos_iff.mpr he
  rw [h e] at hpos
  exact List.count_pos_iff.mp hpos

@[simp] theorem surplus_nil (e : α × α) : surplus e [] = 0 := by simp [surplus]

theorem surplus_append (e : α × α) (l r : List (α × α)) :
    surplus e (l ++ r) = surplus e l + surplus e r := by
  simp only [surplus, List.count_append, Nat.cast_add]
  ring

theorem surplus_cons (e s : α × α) (l : List (α × α)) :
    surplus e (s :: l) = surplus e [s] + surplus e l := surplus_append e [s] l

theorem surplus_perm (h : l.Perm r) : surplus e l = surplus e r := by
  rw [surplus, surplus, h.count_eq, h.count_eq]

theorem surplus_flatMap_range (e : α × α) (f : ℕ → List (α × α)) (n : ℕ) :
    surplus e ((List.range n).flatMap f) = ∑ i ∈ Finset.range n, surplus e (f i) := by
  induction n with
  | zero => simp
  | succ n ih =>
    rw [List.range_succ, List.flatMap_append, surplus_append, ih, List.flatMap_singleton,
      Finset.sum_range_succ]

theorem count_map_swap (l : List (α × α)) (e : α × α) :
    (l.map Prod.swap).count e = l.count e.swap := by
  have h := List.count_map_of_injective l Prod.swap Prod.swap_injective e.swap
  rwa [Prod.swap_swap] at h

/-- A step back takes a step away. -/
theorem surplus_swap (e : α × α) (a b : α) : surplus e [(b, a)] = -surplus e [(a, b)] := by
  have hback : ∀ s : α × α, List.count s [(b, a)] = List.count s.swap [(a, b)] :=
    count_map_swap [(a, b)]
  rw [surplus, surplus, hback, hback, Prod.swap_swap]
  ring

theorem surplus_pair (e : α × α) (a b c d : α) :
    surplus e [(a, b), (c, d)] = surplus e [(a, b)] - surplus e [(d, c)] := by
  rw [surplus_cons, surplus_swap e d c]
  ring

theorem isBalanced_iff_perm : IsBalanced l ↔ l.Perm (l.map Prod.swap) := by
  rw [List.perm_iff_count]
  exact forall_congr' fun e => by rw [count_map_swap]

/-- Steps stay balanced when their ends are renamed. -/
theorem IsBalanced.map (h : IsBalanced l) (f : α → β) : IsBalanced (l.map (Prod.map f f)) := by
  have hmap := (isBalanced_iff_perm.mp h).map (Prod.map f f)
  rw [isBalanced_iff_perm, List.map_map]
  rwa [List.map_map] at hmap

/-- Names that tell the ends apart do not matter. -/
theorem isBalanced_map_iff {f : α → β} {g : β → α}
    (h : ∀ e ∈ l, g (f e.1) = e.1 ∧ g (f e.2) = e.2) :
    IsBalanced (l.map (Prod.map f f)) ↔ IsBalanced l := by
  refine ⟨fun hmap => ?_, fun hl => hl.map f⟩
  have hback : (l.map (Prod.map f f)).map (Prod.map g g) = l := by
    rw [List.map_map]
    exact (List.map_congr_left fun e he => Prod.ext (h e he).1 (h e he).2).trans l.map_id
  exact hback ▸ hmap.map g

end Balance

namespace Grid

variable {α β : Type}

/-! ### Cells -/

/-- The corners of the cell in slice `i` and layer `j`. At a pole the two corners on it are one. -/
def cell (N : ℕ → ℕ → α) (layers i j : ℕ) : List α :=
  [N i (j + 1)] ++ (if j + 1 < layers then [N (i + 1) (j + 1)] else [])
    ++ (if 0 < j then [N (i + 1) j] else []) ++ [N i j]

variable {N : ℕ → ℕ → α} {slices layers i j : ℕ}

theorem cell_map (f : α → β) (N : ℕ → ℕ → α) (layers i j : ℕ) :
    (cell N layers i j).map f = cell (fun i j => f (N i j)) layers i j := by
  simp only [cell, List.map_append, List.map_cons, List.map_nil, apply_ite (List.map f)]

theorem cell_first (h : 1 < layers) : cell N layers i 0 = [N i 1, N (i + 1) 1, N i 0] := by
  simp [cell, h]

theorem cell_middle (hj : 0 < j) (h : j + 1 < layers) :
    cell N layers i j = [N i (j + 1), N (i + 1) (j + 1), N (i + 1) j, N i j] := by
  simp [cell, hj, h]

theorem cell_last (hj : 0 < j) : cell N (j + 1) i j = [N i (j + 1), N (i + 1) j, N i j] := by
  simp [cell, hj]

theorem edges_cell_first (h : 1 < layers) : Plane.edges (cell N layers i 0)
    = [(N i 1, N (i + 1) 1), (N (i + 1) 1, N i 0), (N i 0, N i 1)] := by
  rw [cell_first h]
  rfl

theorem edges_cell_middle (hj : 0 < j) (h : j + 1 < layers) : Plane.edges (cell N layers i j)
    = [(N i (j + 1), N (i + 1) (j + 1)), (N (i + 1) (j + 1), N (i + 1) j),
      (N (i + 1) j, N i j), (N i j, N i (j + 1))] := by
  rw [cell_middle hj h]
  rfl

theorem edges_cell_last (hj : 0 < j) : Plane.edges (cell N (j + 1) i j)
    = [(N i (j + 1), N (i + 1) j), (N (i + 1) j, N i j), (N i j, N i (j + 1))] := by
  rw [cell_last hj]
  rfl

/-- Where the corners of a cell are in the grid. -/
theorem exists_of_mem_cell {x : α} (h : x ∈ cell N layers i j) :
    ∃ i' j', (i' = i ∨ i' = i + 1) ∧ (j' = j ∨ j' = j + 1) ∧ x = N i' j' := by
  simp only [cell, List.mem_append, List.mem_ite_nil_right, List.mem_singleton] at h
  obtain ((rfl | ⟨-, rfl⟩) | ⟨-, rfl⟩) | rfl := h
  · exact ⟨_, _, .inl rfl, .inr rfl, rfl⟩
  · exact ⟨_, _, .inr rfl, .inr rfl, rfl⟩
  · exact ⟨_, _, .inr rfl, .inl rfl, rfl⟩
  · exact ⟨_, _, .inl rfl, .inl rfl, rfl⟩

/-- The cells at the poles have three corners, the others four. -/
theorem length_cell (hlayers : 2 ≤ layers) :
    (cell N layers i j).length = if j = 0 ∨ layers ≤ j + 1 then 3 else 4 := by
  simp only [cell, List.length_append, apply_ite List.length, List.length_cons, List.length_nil]
  split <;> split <;> split <;> omega

/-! ### The seam -/

/-- The edges at which the last slice meets the first one, down the first slice and up after the
last one, and the edges to and from each pole. -/
def seam (N : ℕ → ℕ → α) (slices layers : ℕ) : List (α × α) :=
  ((List.range slices).flatMap fun i => [(N i 0, N i 1), (N (i + 1) 1, N i 0)])
    ++ ((List.range (layers - 2)).flatMap fun j =>
      [(N 0 (j + 1), N 0 (j + 2)), (N slices (j + 2), N slices (j + 1))])
    ++ ((List.range slices).flatMap fun i =>
      [(N i (layers - 1), N i layers), (N i layers, N (i + 1) (layers - 1))])

section Seam

variable [DecidableEq α] (e : α × α)

/-- Inside of a slice all edges between two layers are taken both ways. What is left is the way down
on its one side and up on its other side. -/
theorem surplus_slice (N : ℕ → ℕ → α) (k i : ℕ) :
    ∑ j ∈ Finset.range (k + 2), surplus e (Plane.edges (cell N (k + 2) i j))
      = surplus e [(N i 0, N i 1), (N (i + 1) 1, N i 0)]
        + (∑ j ∈ Finset.range k, surplus e [(N i (j + 1), N i (j + 2))]
          - ∑ j ∈ Finset.range k, surplus e [(N (i + 1) (j + 1), N (i + 1) (j + 2))])
        + surplus e [(N i (k + 1), N i (k + 2)), (N i (k + 2), N (i + 1) (k + 1))] := by
  set across : ℕ → ℤ := fun j => surplus e [(N i (j + 1), N (i + 1) (j + 1))] with hacross
  have hfirst : surplus e (Plane.edges (cell N (k + 2) i 0))
      = surplus e [(N i 0, N i 1), (N (i + 1) 1, N i 0)] + across 0 := by
    rw [edges_cell_first (by omega)]
    simp only [surplus_cons e _ (_ :: _), hacross]
    ring
  have hmiddle : ∀ j ∈ Finset.range k, surplus e (Plane.edges (cell N (k + 2) i (j + 1)))
      = surplus e [(N i (j + 1), N i (j + 2))]
        - surplus e [(N (i + 1) (j + 1), N (i + 1) (j + 2))] - (across j - across (j + 1)) := by
    intro j hj
    rw [Finset.mem_range] at hj
    rw [edges_cell_middle (by omega) (by omega)]
    simp only [surplus_cons e _ (_ :: _), hacross]
    rw [surplus_swap e (N (i + 1) (j + 1)), surplus_swap e (N i (j + 1)) (N (i + 1) (j + 1))]
    ring
  have hlast : surplus e (Plane.edges (cell N (k + 2) i (k + 1)))
      = surplus e [(N i (k + 1), N i (k + 2)), (N i (k + 2), N (i + 1) (k + 1))] - across k := by
    rw [edges_cell_last (by omega)]
    simp only [surplus_cons e _ (_ :: _), hacross]
    rw [surplus_swap e (N i (k + 1)) (N (i + 1) (k + 1))]
    ring
  rw [Finset.sum_range_succ, Finset.sum_range_succ', Finset.sum_congr rfl hmiddle, hfirst, hlast,
    Finset.sum_sub_distrib, Finset.sum_sub_distrib, Finset.sum_range_sub']
  ring

/-- What is not taken back inside of the grid is on its seam. -/
theorem surplus_cells (N : ℕ → ℕ → α) (slices : ℕ) (hlayers : 2 ≤ layers) :
    surplus e ((List.range slices ×ˢ List.range layers).flatMap fun c =>
      Plane.edges (cell N layers c.1 c.2)) = surplus e (seam N slices layers) := by
  obtain ⟨k, rfl⟩ := Nat.exists_eq_add_of_le' hlayers
  have hslices : surplus e ((List.range slices ×ˢ List.range (k + 2)).flatMap fun c =>
      Plane.edges (cell N (k + 2) c.1 c.2)) = ∑ i ∈ Finset.range slices,
        ∑ j ∈ Finset.range (k + 2), surplus e (Plane.edges (cell N (k + 2) i j)) := by
    change surplus e (((List.range slices).flatMap fun i => _).flatMap _) = _
    rw [List.flatMap_assoc, surplus_flatMap_range]
    simp only [List.flatMap_map, surplus_flatMap_range]
  rw [hslices, seam, surplus_append, surplus_append, surplus_flatMap_range, surplus_flatMap_range,
    surplus_flatMap_range, Nat.add_sub_cancel]
  simp only [surplus_slice, Finset.sum_add_distrib, surplus_pair e (N 0 (_ + 1))]
  -- down one side of a slice is where the slice before it goes up
  rw [Finset.sum_range_sub' fun i => ∑ j ∈ Finset.range k, surplus e [(N i (j + 1), N i (j + 2))],
    Finset.sum_sub_distrib]
  rfl

end Seam

/-! ### Outlines arranged in a grid -/

/-- All edges of some outlines. -/
def steps (outlines : List (List α)) : List (α × α) := outlines.flatMap Plane.edges

theorem steps_map (f : α → β) (outlines : List (List α)) :
    steps (outlines.map (List.map f)) = (steps outlines).map (Prod.map f f) := by
  simp only [steps, List.flatMap_map, List.map_flatMap, Outline.edges_map]

/-- The outlines are those of the cells of a grid, in some order, and each begun somewhere. -/
def Arranges (N : ℕ → ℕ → α) (slices layers : ℕ) (outlines : List (List α)) : Prop :=
  ∃ outline : ℕ × ℕ → List α, (∀ c, (outline c).IsRotated (cell N layers c.1 c.2)) ∧
    outlines.Perm ((List.range slices ×ˢ List.range layers).map outline)

namespace Arranges

variable {outlines : List (List α)}

theorem map (h : Arranges N slices layers outlines) (f : α → β) :
    Arranges (fun i j => f (N i j)) slices layers (outlines.map (List.map f)) := by
  obtain ⟨outline, hrotated, hperm⟩ := h
  refine ⟨fun c => (outline c).map f, fun c => ?_, ?_⟩
  · rw [← cell_map]
    exact (hrotated c).map f
  · have hmap := hperm.map (List.map f)
    rw [List.map_map] at hmap
    exact hmap

theorem length_eq (h : Arranges N slices layers outlines) : outlines.length = slices * layers := by
  obtain ⟨outline, -, hperm⟩ := h
  rw [hperm.length_eq, List.length_map, List.length_product, List.length_range, List.length_range]

theorem steps_perm (h : Arranges N slices layers outlines) :
    (steps outlines).Perm ((List.range slices ×ˢ List.range layers).flatMap fun c =>
      Plane.edges (cell N layers c.1 c.2)) := by
  obtain ⟨outline, hrotated, hperm⟩ := h
  refine (hperm.flatMap_right Plane.edges).trans ?_
  rw [List.flatMap_map]
  exact List.Perm.flatMap_left _ fun c _ => Outline.edges_perm_of_isRotated (hrotated c)

/-- What is so of every cell is so of every outline, if it does not matter where that begins. -/
theorem forall_mem (h : Arranges N slices layers outlines) {P : List α → Prop}
    (hP : ∀ l r, l.IsRotated r → P r → P l)
    (hcell : ∀ i < slices, ∀ j < layers, P (cell N layers i j)) : ∀ l ∈ outlines, P l := by
  obtain ⟨outline, hrotated, hperm⟩ := h
  intro l hl
  obtain ⟨⟨i, j⟩, hc, rfl⟩ := List.mem_map.mp (hperm.mem_iff.mp hl)
  obtain ⟨hi, hj⟩ := List.mem_product.mp hc
  exact hP _ _ (hrotated _) (hcell i (List.mem_range.mp hi) j (List.mem_range.mp hj))

theorem length_of_mem (h : Arranges N slices layers outlines) (hlayers : 2 ≤ layers) :
    ∀ l ∈ outlines, l.length = 3 ∨ l.length = 4 := by
  refine h.forall_mem (fun l r hrotated hlength => ?_) fun i _ j _ => ?_
  · rwa [hrotated.perm.length_eq]
  · rw [length_cell hlayers]
    split <;> simp

/-- The edges of all cells are balanced when those of the seam are. -/
theorem isBalanced_iff [DecidableEq α] (h : Arranges N slices layers outlines)
    (hlayers : 2 ≤ layers) :
    IsBalanced (steps outlines) ↔ IsBalanced (seam N slices layers) := by
  rw [Solids.isBalanced_iff, Solids.isBalanced_iff]
  refine forall_congr' fun e => ?_
  rw [surplus_perm h.steps_perm, surplus_cells e N slices hlayers]

end Arranges

/-- Of the outlines in a grid those at the poles have three corners. -/
theorem Arranges.countP_triangles {outlines : List (List α)}
    (h : Arranges N slices layers outlines) (hlayers : 2 ≤ layers) :
    outlines.countP (fun l => l.length = 3) = 2 * slices := by
  obtain ⟨outline, hrotated, hperm⟩ := h
  obtain ⟨k, rfl⟩ := Nat.exists_eq_add_of_le' hlayers
  have hslice : ∀ i, ((List.range (k + 2)).map (Prod.mk i)).countP
      ((fun l => decide (l.length = 3)) ∘ outline) = 2 := by
    intro i
    have hlength : ∀ j ∈ List.range (k + 2),
        ((fun l => decide (l.length = 3)) ∘ outline ∘ Prod.mk i) j = true ↔
          decide (j = 0 ∨ j = k + 1) = true := by
      intro j hj
      have hj := List.mem_range.mp hj
      simp only [Function.comp_apply, decide_eq_true_eq, (hrotated _).perm.length_eq,
        length_cell hlayers]
      split <;> omega
    rw [List.countP_map, Function.comp_assoc, List.countP_congr hlength, List.range_succ,
      List.range_succ_eq_map, List.countP_append, List.countP_cons, List.countP_map]
    have hnone : (List.range k).countP ((fun j => decide (j = 0 ∨ j = k + 1)) ∘ Nat.succ) = 0 := by
      rw [List.countP_eq_zero]
      intro j hj
      have hj := List.mem_range.mp hj
      simp only [Function.comp_apply, decide_eq_true_eq]
      omega
    rw [hnone]
    simp
  rw [hperm.countP_eq, List.countP_map]
  change ((List.range slices).flatMap fun i => (List.range (k + 2)).map (Prod.mk i)).countP _ = _
  rw [List.countP_flatMap]
  simp only [Function.comp_def] at hslice ⊢
  simp [hslice, mul_comm]

/-! ### Grids that close up -/

/-- The corners are at the same place of the grid: at the same pole, or in the same layer and
slice, where the last slice ends in the first one. -/
def Meet (slices layers i j i' j' : ℕ) : Prop :=
  j = j' ∧ (j = 0 ∨ j = layers ∨ i = i' ∨ i = 0 ∧ i' = slices ∨ i = slices ∧ i' = 0)

/-- What is at the same place of the grid is the same corner. -/
def ClosesUp (N : ℕ → ℕ → α) (slices layers : ℕ) : Prop :=
  ∀ i ≤ slices, ∀ j ≤ layers, ∀ i' ≤ slices, ∀ j' ≤ layers,
    Meet slices layers i j i' j' → N i j = N i' j'

/-- What is at different places of the grid are different corners. -/
def KeepsApart (N : ℕ → ℕ → α) (slices layers : ℕ) : Prop :=
  ∀ i ≤ slices, ∀ j ≤ layers, ∀ i' ≤ slices, ∀ j' ≤ layers,
    N i j = N i' j' → Meet slices layers i j i' j'

/-- The places that an edge of the cell goes between: to the next slice, up, back to the slice, or
down. -/
def Borders (layers i j a b a' b' : ℕ) : Prop :=
  a = i ∧ a' = i + 1 ∧ b = j + 1 ∧ b' = j + 1 ∧ j + 1 < layers ∨
    a = i + 1 ∧ a' = i + 1 ∧ b = j + 1 ∧ b' = j ∧ j < layers ∨
    a = i + 1 ∧ a' = i ∧ b = j ∧ b' = j ∧ 0 < j ∧ j < layers ∨
    a = i ∧ a' = i ∧ b = j ∧ b' = j + 1 ∧ j < layers

/-- If each pole is one corner, all that is left of the seam is the way down the first slice and up
the last one. -/
theorem surplus_seam_of_poles [DecidableEq α] (e : α × α) (hlayers : 2 ≤ layers)
    (hfirst : ∀ i ≤ slices, N i 0 = N 0 0) (hlast : ∀ i ≤ slices, N i layers = N 0 layers) :
    surplus e (seam N slices layers) = ∑ j ∈ Finset.range layers,
      (surplus e [(N 0 j, N 0 (j + 1))] - surplus e [(N slices j, N slices (j + 1))]) := by
  obtain ⟨k, rfl⟩ := Nat.exists_eq_add_of_le' hlayers
  -- from the first pole down, and at the last one up, it goes on where the slice before it was
  have htop : ∀ i ∈ Finset.range slices, surplus e [(N i 0, N i 1), (N (i + 1) 1, N i 0)]
      = surplus e [(N 0 0, N i 1)] - surplus e [(N 0 0, N (i + 1) 1)] := by
    intro i hi
    rw [hfirst i (Finset.mem_range.mp hi).le, surplus_pair]
  have hbottom : ∀ i ∈ Finset.range slices,
      surplus e [(N i (k + 1), N i (k + 2)), (N i (k + 2), N (i + 1) (k + 1))]
        = surplus e [(N i (k + 1), N 0 (k + 2))]
          - surplus e [(N (i + 1) (k + 1), N 0 (k + 2))] := by
    intro i hi
    rw [hlast i (Finset.mem_range.mp hi).le, surplus_pair]
  rw [seam, surplus_append, surplus_append, surplus_flatMap_range, surplus_flatMap_range,
    surplus_flatMap_range, Nat.add_sub_cancel, show k + 2 - 1 = k + 1 from rfl,
    Finset.sum_congr rfl htop, Finset.sum_congr rfl hbottom,
    Finset.sum_congr rfl fun j _ => surplus_pair e (N 0 (j + 1)) _ _ _,
    Finset.sum_range_sub' fun i => surplus e [(N 0 0, N i 1)],
    Finset.sum_range_sub' fun i => surplus e [(N i (k + 1), N 0 (k + 2))],
    Finset.sum_range_succ, Finset.sum_range_succ', hfirst slices le_rfl, hlast slices le_rfl]
  ring

namespace ClosesUp

/-- A grid that closes up has a balanced seam. -/
theorem isBalanced_seam [DecidableEq α] (h : ClosesUp N slices layers) (hlayers : 2 ≤ layers) :
    IsBalanced (seam N slices layers) := by
  have hwrap : ∀ j ≤ layers, N slices j = N 0 j := fun j hj =>
    h slices le_rfl j hj 0 (Nat.zero_le _) j hj ⟨rfl, by omega⟩
  rw [isBalanced_iff]
  intro e
  rw [surplus_seam_of_poles e hlayers
    (fun i hi => h i hi 0 (by omega) 0 (by omega) 0 (by omega) ⟨rfl, by omega⟩)
    (fun i hi => h i hi _ le_rfl 0 (by omega) _ le_rfl ⟨rfl, by omega⟩)]
  refine Finset.sum_eq_zero fun j hj => ?_
  have hj := Finset.mem_range.mp hj
  rw [hwrap j (by omega), hwrap (j + 1) (by omega), sub_self]

/-- The edges of a cell. -/
theorem mem_edges_cell (h : ClosesUp N slices layers) (hlayers : 2 ≤ layers) (hi : i < slices)
    (hj : j < layers) {e : α × α} (he : e ∈ Plane.edges (cell N layers i j)) :
    ∃ a ≤ slices, ∃ b ≤ layers, ∃ a' ≤ slices, ∃ b' ≤ layers,
      e = (N a b, N a' b') ∧ Borders layers i j a b a' b' := by
  have hborder : ∀ a b a' b', Borders layers i j a b a' b' → e = (N a b, N a' b') →
      ∃ a ≤ slices, ∃ b ≤ layers, ∃ a' ≤ slices, ∃ b' ≤ layers,
        e = (N a b, N a' b') ∧ Borders layers i j a b a' b' := by
    intro a b a' b' hborders he
    have hwithin : a ≤ slices ∧ b ≤ layers ∧ a' ≤ slices ∧ b' ≤ layers := by
      simp only [Borders] at hborders
      omega
    exact ⟨a, hwithin.1, b, hwithin.2.1, a', hwithin.2.2.1, b', hwithin.2.2.2, he, hborders⟩
  have hnext := hborder i (j + 1) (i + 1) (j + 1)
  have hup := hborder (i + 1) (j + 1) (i + 1) j
  have hback := hborder (i + 1) j i j
  have hdown := hborder i j i (j + 1)
  simp only [Borders, true_and] at hnext hup hback hdown
  rcases Nat.eq_zero_or_pos j with rfl | hfirst
  · have hpole : N i 0 = N (i + 1) 0 :=
      h i hi.le 0 (by omega) (i + 1) hi 0 (by omega) ⟨rfl, by omega⟩
    rw [edges_cell_first (by omega)] at he
    simp only [List.mem_cons, List.not_mem_nil, or_false] at he
    rcases he with he | he | he
    · exact hnext (by omega) he
    · exact hup (by omega) (hpole ▸ he)
    · exact hdown (by omega) he
  · by_cases hlast : j + 1 < layers
    · rw [edges_cell_middle hfirst hlast] at he
      simp only [List.mem_cons, List.not_mem_nil, or_false] at he
      rcases he with he | he | he | he
      · exact hnext (by omega) he
      · exact hup (by omega) he
      · exact hback (by omega) he
      · exact hdown (by omega) he
    · obtain rfl : layers = j + 1 := by omega
      have hpole : N i (j + 1) = N (i + 1) (j + 1) :=
        h i hi.le _ le_rfl (i + 1) hi _ le_rfl ⟨rfl, by omega⟩
      rw [edges_cell_last hfirst] at he
      simp only [List.mem_cons, List.not_mem_nil, or_false] at he
      rcases he with he | he | he
      · exact hup (by omega) (hpole ▸ he)
      · exact hback (by omega) he
      · exact hdown (by omega) he

/-- An edge belongs to one cell alone. -/
theorem eq_of_mem_edges_cell (h : ClosesUp N slices layers) (hapart : KeepsApart N slices layers)
    (hslices : 3 ≤ slices) (hlayers : 2 ≤ layers) {i' j' : ℕ} (hi : i < slices) (hj : j < layers)
    (hi' : i' < slices) (hj' : j' < layers) {e : α × α}
    (he : e ∈ Plane.edges (cell N layers i j)) (he' : e ∈ Plane.edges (cell N layers i' j')) :
    i = i' ∧ j = j' := by
  obtain ⟨a, ha, b, hb, c, hc, d, hd, rfl, hcell⟩ := h.mem_edges_cell hlayers hi hj he
  obtain ⟨a', ha', b', hb', c', hc', d', hd', heq, hcell'⟩ :=
    h.mem_edges_cell hlayers hi' hj' he'
  obtain ⟨hfrom, hto⟩ := Prod.ext_iff.mp heq
  have hfrom := hapart a ha b hb a' ha' b' hb' hfrom
  have hto := hapart c hc d hd c' hc' d' hd' hto
  simp only [Meet] at hfrom hto
  simp only [Borders] at hcell hcell'
  rcases hcell with hcell | hcell | hcell | hcell <;>
    rcases hcell' with hcell' | hcell' | hcell' | hcell' <;> omega

end ClosesUp

theorem KeepsApart.nodup_cell (h : KeepsApart N slices layers) (hslices : 3 ≤ slices)
    (hlayers : 2 ≤ layers) (hi : i < slices) (hj : j < layers) : (cell N layers i j).Nodup := by
  have hne : ∀ a ≤ slices, ∀ b ≤ layers, ∀ a' ≤ slices, ∀ b' ≤ layers,
      ¬ Meet slices layers a b a' b' → N a b ≠ N a' b' := fun a ha b hb a' ha' b' hb' hmeet heq =>
    hmeet (h a ha b hb a' ha' b' hb' heq)
  simp only [Meet] at hne
  rcases Nat.eq_zero_or_pos j with rfl | hfirst
  · rw [cell_first (by omega)]
    simp only [List.nodup_cons, List.mem_cons, List.not_mem_nil, or_false, not_or,
      not_false_eq_true, List.nodup_nil, and_true]
    refine ⟨⟨?_, ?_⟩, ?_⟩ <;> apply hne <;> omega
  · by_cases hlast : j + 1 < layers
    · rw [cell_middle hfirst hlast]
      simp only [List.nodup_cons, List.mem_cons, List.not_mem_nil, or_false, not_or,
        not_false_eq_true, List.nodup_nil, and_true]
      refine ⟨⟨?_, ?_, ?_⟩, ⟨?_, ?_⟩, ?_⟩ <;> apply hne <;> omega
    · obtain rfl : layers = j + 1 := by omega
      rw [cell_last hfirst]
      simp only [List.nodup_cons, List.mem_cons, List.not_mem_nil, or_false, not_or,
        not_false_eq_true, List.nodup_nil, and_true]
      refine ⟨⟨?_, ?_⟩, ?_⟩ <;> apply hne <;> omega

namespace Arranges

variable {outlines : List (List α)}

/-- No outline comes to a corner twice. -/
theorem nodup (h : Arranges N slices layers outlines) (hapart : KeepsApart N slices layers)
    (hslices : 3 ≤ slices) (hlayers : 2 ≤ layers) : ∀ l ∈ outlines, l.Nodup :=
  h.forall_mem (fun _ _ hrotated hnodup => hrotated.perm.nodup_iff.mpr hnodup)
    fun _ hi _ hj => hapart.nodup_cell hslices hlayers hi hj

/-- No two outlines have an edge in common. -/
theorem pairwise_disjoint (h : Arranges N slices layers outlines)
    (hcloses : ClosesUp N slices layers) (hapart : KeepsApart N slices layers)
    (hslices : 3 ≤ slices) (hlayers : 2 ≤ layers) :
    outlines.Pairwise fun l r => (Plane.edges l).Disjoint (Plane.edges r) := by
  obtain ⟨outline, hrotated, hperm⟩ := h
  rw [hperm.pairwise_iff fun hdisjoint => hdisjoint.symm, List.pairwise_map]
  refine (List.Nodup.product List.nodup_range List.nodup_range).imp_of_mem ?_
  intro c c' hc hc' hne e he he'
  obtain ⟨hi, hj⟩ := List.mem_product.mp hc
  obtain ⟨hi', hj'⟩ := List.mem_product.mp hc'
  rw [(Outline.edges_perm_of_isRotated (hrotated _)).mem_iff] at he he'
  obtain ⟨hslice, hlayer⟩ := hcloses.eq_of_mem_edges_cell hapart hslices hlayers
    (List.mem_range.mp hi) (List.mem_range.mp hj) (List.mem_range.mp hi') (List.mem_range.mp hj')
    he he'
  exact hne (Prod.ext hslice hlayer)

end Arranges

end Grid

end Solids
