import Mathlib
import Solids.Recipe.Measure
/-!
# Solids.Proofs.Postorder

**The nodes of a recipe from the bottom up**: the children of a node in their order, each
after all that is below it, and then the node itself. Each node comes with its place.

Main statements:

* `Node.postorder_eq` — what is below a node, one child after the other, and the node;
* `Node.length_postorder` — these are as many as the loop of `Node.count` counts;
* `Node.nodup_postorder` — no two nodes are at one place.

Two nodes that are items of one array are at different places because all that is below the
one is inside one item, and all that is below the other inside the other: `Path.Within`.
-/

namespace Solids

/-! ### Places inside others -/

namespace Path

/-- The place is `p` itself, or a part of what is there. -/
def Within (p : Path) : Path → Prop
  | .document => p = .document
  | .key parent name => p = .key parent name ∨ p.Within parent
  | .index parent position => p = .index parent position ∨ p.Within parent

variable {p p' q : Path} {name : String} {i : ℕ}

namespace Within

theorem refl (p : Path) : p.Within p := by
  cases p <;> simp [Within]

theorem document (q : Path) : Path.document.Within q := by
  induction q with
  | document => rfl
  | key parent name ih => exact .inr ih
  | index parent position ih => exact .inr ih

theorem trans {r : Path} (h : p.Within q) (h' : q.Within r) : p.Within r := by
  induction r with
  | document =>
    obtain rfl : q = .document := h'
    exact h
  | key parent name ih =>
    rcases h' with rfl | h'
    · exact h
    · exact .inr (ih h')
  | index parent position ih =>
    rcases h' with rfl | h'
    · exact h
    · exact .inr (ih h')

theorem key (h : p.Within q) (name : String) : p.Within (q.key name) := .inr h

theorem index (h : p.Within q) (i : ℕ) : p.Within (q.index i) := .inr h

theorem of_key (h : (p.key name).Within q) : p.Within q := ((refl p).key name).trans h

theorem of_index (h : (p.index i).Within q) : p.Within q := ((refl p).index i).trans h

theorem length_le (h : p.Within q) : p.length ≤ q.length := by
  induction q with
  | document => exact (congrArg length h).le
  | key parent name ih =>
    rcases h with rfl | h
    · exact le_rfl
    · exact (ih h).trans (Nat.le_succ _)
  | index parent position ih =>
    rcases h with rfl | h
    · exact le_rfl
    · exact (ih h).trans (Nat.le_succ _)

/-- Of the places that a place is inside of, there is one for each length. -/
theorem eq_of_length_eq (h : p.Within q) (h' : p'.Within q) (hlength : p.length = p'.length) :
    p = p' := by
  induction q with
  | document => exact Eq.trans h (Eq.symm h')
  | key parent name ih =>
    rcases h with rfl | h <;> rcases h' with rfl | h'
    · rfl
    · have hle := h'.length_le
      simp only [length_key] at hlength
      omega
    · have hle := h.length_le
      simp only [length_key] at hlength
      omega
    · exact ih h h'
  | index parent position ih =>
    rcases h with rfl | h <;> rcases h' with rfl | h'
    · rfl
    · have hle := h'.length_le
      simp only [length_index] at hlength
      omega
    · have hle := h.length_le
      simp only [length_index] at hlength
      omega
    · exact ih h h'

theorem antisymm (h : p.Within q) (h' : q.Within p) : p = q :=
  h.eq_of_length_eq (refl q) (le_antisymm h.length_le h'.length_le)

end Within

end Path

namespace Node

variable {K : Type}

/-! ### The order -/

mutual

/-- The nodes of a tree at `path`, each after all that is below it, with their places. -/
def postorder (path : Path) : Node K → List (Node K × Path)
  | .shape s => [(.shape s, path)]
  | .combine combination children =>
    postorderOfItems (path.key "children") 0 children ++ [(.combine combination children, path)]
  | .move motion child => postorder (path.key "child") child ++ [(.move motion child, path)]

/-- The nodes of trees that are items of an array at `path`, the first one at position
`i`. -/
def postorderOfItems (path : Path) (i : Nat) : List (Node K) → List (Node K × Path)
  | [] => []
  | n :: rest => postorder (path.index i) n ++ postorderOfItems path (i + 1) rest

end

theorem postorderOfItems_eq (path : Path) (i : ℕ) (ns : List (Node K)) :
    postorderOfItems path i ns = (placedFrom path i ns).flatMap fun e => e.1.postorder e.2 := by
  induction ns generalizing i with
  | nil => simp [postorderOfItems, placedFrom]
  | cons n rest ih => simp [postorderOfItems, placedFrom, ih]

/-- What is below a node, one child after the other, and then the node. -/
theorem postorder_eq (path : Path) (n : Node K) : n.postorder path =
    (n.placedChildren path).flatMap (fun e => e.1.postorder e.2) ++ [(n, path)] := by
  cases n <;> simp [postorder, placedChildren, postorderOfItems_eq]

/-! ### How many nodes there are -/

theorem countFrom_eq (count : ℕ) (pending : List (Node K)) :
    countFrom count pending = count + sizeOfAll pending := by
  fun_induction countFrom count pending with
  | case1 count => simp [sizeOfAll]
  | case2 count n rest ih =>
    rw [ih, sizeOfAll_append, sizeOfAll, size_eq n]
    omega

/-- The loop counts the nodes of the tree. -/
theorem count_eq_size (n : Node K) : n.count = n.size := by
  simp [count, countFrom_eq, sizeOfAll]

mutual

theorem length_postorder_eq_size (path : Path) :
    (n : Node K) → (n.postorder path).length = n.size
  | .shape s => by simp [postorder, size]
  | .combine combination children => by
    simp [postorder, size, length_postorderOfItems (path.key "children") 0 children]
  | .move motion child => by
    simp [postorder, size, length_postorder_eq_size (path.key "child") child]

theorem length_postorderOfItems (path : Path) (i : ℕ) :
    (ns : List (Node K)) → (postorderOfItems path i ns).length = sizeOfAll ns
  | [] => by simp [postorderOfItems, sizeOfAll]
  | n :: rest => by
    simp [postorderOfItems, sizeOfAll, length_postorder_eq_size (path.index i) n,
      length_postorderOfItems path (i + 1) rest]

end

theorem length_postorder (path : Path) (n : Node K) : (n.postorder path).length = n.count := by
  rw [length_postorder_eq_size, count_eq_size]

/-! ### Where the nodes are -/

mutual

theorem within_of_mem_postorder (path : Path) {e : Node K × Path} :
    (n : Node K) → e ∈ n.postorder path → path.Within e.2
  | .shape s, h => by
    simp only [postorder, List.mem_singleton] at h
    exact h ▸ .refl path
  | .combine combination children, h => by
    simp only [postorder, List.mem_append, List.mem_singleton] at h
    rcases h with h | rfl
    · obtain ⟨j, -, hj⟩ := within_of_mem_postorderOfItems (path.key "children") 0 children h
      exact hj.of_index.of_key
    · exact .refl path
  | .move motion child, h => by
    simp only [postorder, List.mem_append, List.mem_singleton] at h
    rcases h with h | rfl
    · exact (within_of_mem_postorder (path.key "child") child h).of_key
    · exact .refl path

theorem within_of_mem_postorderOfItems (path : Path) (i : ℕ) {e : Node K × Path} :
    (ns : List (Node K)) → e ∈ postorderOfItems path i ns →
      ∃ j, i ≤ j ∧ (path.index j).Within e.2
  | [], h => by simp [postorderOfItems] at h
  | n :: rest, h => by
    simp only [postorderOfItems, List.mem_append] at h
    rcases h with h | h
    · exact ⟨i, le_rfl, within_of_mem_postorder (path.index i) n h⟩
    · obtain ⟨j, hij, hj⟩ := within_of_mem_postorderOfItems path (i + 1) rest h
      exact ⟨j, by omega, hj⟩

end

/-- A node is not at one place with anything below it. -/
theorem nodup_concat {l : List (Node K × Path)} {path : Path} (n : Node K)
    (h : (l.map Prod.snd).Nodup) (hbelow : ∀ e ∈ l, path.length < e.2.length) :
    ((l ++ [(n, path)]).map Prod.snd).Nodup := by
  rw [List.map_append, List.nodup_append]
  refine ⟨h, by simp, ?_⟩
  rintro _ hq q hq' rfl
  obtain ⟨e, he, rfl⟩ := List.mem_map.mp hq
  have hlength := hbelow e he
  simp only [List.map_cons, List.map_nil, List.mem_singleton] at hq'
  exact hlength.ne' (congrArg Path.length hq')

mutual

/-- No two nodes of a tree are at one place. -/
theorem nodup_postorder (path : Path) :
    (n : Node K) → ((n.postorder path).map Prod.snd).Nodup
  | .shape s => by simp [postorder]
  | .combine combination children => by
    refine nodup_concat _ (nodup_postorderOfItems (path.key "children") 0 children) ?_
    intro e he
    obtain ⟨j, -, hj⟩ := within_of_mem_postorderOfItems (path.key "children") 0 children he
    have hle := hj.length_le
    simp only [Path.length_key, Path.length_index] at hle
    omega
  | .move motion child => by
    refine nodup_concat _ (nodup_postorder (path.key "child") child) ?_
    intro e he
    have hle := (within_of_mem_postorder (path.key "child") child he).length_le
    simpa using hle

theorem nodup_postorderOfItems (path : Path) (i : ℕ) :
    (ns : List (Node K)) → ((postorderOfItems path i ns).map Prod.snd).Nodup
  | [] => by simp [postorderOfItems]
  | n :: rest => by
    rw [postorderOfItems, List.map_append, List.nodup_append]
    refine ⟨nodup_postorder (path.index i) n, nodup_postorderOfItems path (i + 1) rest, ?_⟩
    rintro q hq q' hq' rfl
    obtain ⟨e, he, rfl⟩ := List.mem_map.mp hq
    obtain ⟨e', he', heq⟩ := List.mem_map.mp hq'
    obtain ⟨j, hij, hj⟩ := within_of_mem_postorderOfItems path (i + 1) rest he'
    have hi := within_of_mem_postorder (path.index i) n he
    have hsame := hi.eq_of_length_eq (heq ▸ hj) (by simp)
    simp only [Path.index.injEq, true_and] at hsame
    omega

end

end Node

end Solids
