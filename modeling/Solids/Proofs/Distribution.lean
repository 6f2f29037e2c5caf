import Mathlib.Data.List.Perm.Basic
import Solids.Double
import Solids.Tree
/-!
# Solids.Proofs.Distribution

**Clipping treats every polygon on its own.** The loop of `Tree.clip` hands polygons on in lists:
many share an entry of the pending work, and what is left of them is collected from all depths of
the tree at once. None of this shows in what is left, but for its order.

Main definition:

* `Tree.outside` — clipping by recursion on the tree, the front first.

Main statements:

* `Tree.perm_clipLoop` — whatever is pending, the loop leaves what the recursion leaves of it;
* `Tree.clip_distributes` — the loop clips a list polygon by polygon.

No law of arithmetic is used, so all of this is true of doubles. Equality up to order is
`List.Perm`, which counts every polygon as often as it occurs.
-/

namespace Solids

variable {K : Type}

namespace Pieces

variable [Scalar K]

theorem inFront_splitAll (eps : K) (p : Plane K) (polygons : List (Polygon K)) :
    inFront (p.splitAll eps polygons) = polygons.flatMap fun q => inFront (p.splitAll eps [q]) := by
  simp [inFront, Plane.splitAll, List.flatMap_map]

theorem behind_splitAll (eps : K) (p : Plane K) (polygons : List (Polygon K)) :
    behind (p.splitAll eps polygons) = polygons.flatMap fun q => behind (p.splitAll eps [q]) := by
  simp [behind, Plane.splitAll, List.flatMap_map]

end Pieces

namespace Tree

open scoped List

variable [Scalar K]

/-- What remains of polygons outside the tree's solid. The parts in front of the plane are clipped
by the front child, or kept if there is none; the parts behind it are clipped by the back child, or
dropped if there is none. No parts leave nothing. -/
def outside (eps : K) : Tree K → List (Polygon K) → List (Polygon K)
  | .absent, _ => []
  | .node none _ _ _, polygons => polygons
  | .node (some p) _ front back, polygons =>
    let ahead := Pieces.inFront (p.splitAll eps polygons)
    let behind := Pieces.behind (p.splitAll eps polygons)
    (if ahead.isEmpty then [] else if front.isAbsent then ahead else front.outside eps ahead)
      ++ if behind.isEmpty || back.isAbsent then [] else back.outside eps behind

/-- The order in which a node's sides are clipped is of no account. -/
theorem perm_outside (eps : K) (t : Tree K) (polygons : List (Polygon K)) :
    (t.clipped eps polygons).Perm (t.outside eps polygons) := by
  induction t generalizing polygons with
  | absent => exact .refl _
  | node plane own front back ihFront ihBack =>
    cases plane with
    | none => exact .refl _
    | some p =>
      rw [clipped, outside]
      set ahead := Pieces.inFront (p.splitAll eps polygons)
      set behind := Pieces.behind (p.splitAll eps polygons)
      have hback : (back.clipped eps behind).Perm
          (if behind.isEmpty || back.isAbsent then [] else back.outside eps behind) := by
        cases hbehind : behind.isEmpty with
        | true => simp [List.isEmpty_iff.mp hbehind]
        | false =>
          cases back with
          | absent => exact .refl _
          | node => exact ihBack behind
      have hfront : ((if front.isAbsent then ahead else []) ++ front.clipped eps ahead).Perm
          (if ahead.isEmpty then [] else if front.isAbsent then ahead
            else front.outside eps ahead) := by
        cases hahead : ahead.isEmpty with
        | true => simp [List.isEmpty_iff.mp hahead]
        | false =>
          cases front with
          | absent => simp [isAbsent, clipped]
          | node => exact ihFront ahead
      -- the loop takes the parts behind before what the front child leaves
      calc (if front.isAbsent then ahead else []) ++ back.clipped eps behind
            ++ front.clipped eps ahead
        _ = (if front.isAbsent then ahead else [])
            ++ (back.clipped eps behind ++ front.clipped eps ahead) := List.append_assoc ..
        _ ~ (if front.isAbsent then ahead else [])
            ++ (front.clipped eps ahead ++ back.clipped eps behind) :=
          List.perm_append_comm.append_left _
        _ = (if front.isAbsent then ahead else []) ++ front.clipped eps ahead
            ++ back.clipped eps behind := (List.append_assoc ..).symm
        _ ~ _ := hfront.append hback

/-- Whatever is pending, the loop adds to what it has kept what the recursion leaves of each
entry. -/
theorem perm_clipLoop (eps : K) (work : List (Tree K × List (Polygon K)))
    (kept : List (Polygon K)) :
    clipLoop eps work kept ~ kept ++ work.flatMap fun e => e.1.outside eps e.2 := by
  rw [clipLoop_eq]
  exact kept.reverse_perm.append (.flatMap_left _ fun e _ => perm_outside eps e.1 e.2)

/-- What is left of a list is what is left of each polygon in it. -/
theorem perm_flatMap_clipped (eps : K) (t : Tree K) (polygons : List (Polygon K)) :
    t.clipped eps polygons ~ polygons.flatMap fun q => t.clipped eps [q] := by
  induction t generalizing polygons with
  | absent => simp [clipped]
  | node plane own front back ihFront ihBack =>
    cases plane with
    | none => simp [clipped]
    | some p =>
      have hfront : front.clipped eps (Pieces.inFront (p.splitAll eps polygons)) ~
          polygons.flatMap fun q => front.clipped eps (Pieces.inFront (p.splitAll eps [q])) := by
        refine (ihFront _).trans ?_
        rw [Pieces.inFront_splitAll, List.flatMap_assoc]
        exact .flatMap_left _ fun q _ => (ihFront _).symm
      have hback : back.clipped eps (Pieces.behind (p.splitAll eps polygons)) ~
          polygons.flatMap fun q => back.clipped eps (Pieces.behind (p.splitAll eps [q])) := by
        refine (ihBack _).trans ?_
        rw [Pieces.behind_splitAll, List.flatMap_assoc]
        exact .flatMap_left _ fun q _ => (ihBack _).symm
      have hkept : (if front.isAbsent then Pieces.inFront (p.splitAll eps polygons) else []) =
          polygons.flatMap fun q =>
            if front.isAbsent then Pieces.inFront (p.splitAll eps [q]) else [] := by
        split
        · exact Pieces.inFront_splitAll eps p polygons
        · simp
      simp only [clipped]
      rw [hkept]
      -- the three parts of a node, each polygon by polygon
      calc _
        _ ~ _ := ((List.Perm.refl _).append hback).append hfront
        _ ~ _ := (List.flatMap_append_perm polygons _ _).append_right _
        _ ~ _ := List.flatMap_append_perm polygons _ _

theorem perm_flatMap_clip (eps : K) (t : Tree K) (polygons : List (Polygon K)) :
    t.clip eps polygons ~ polygons.flatMap fun q => t.clip eps [q] := by
  simpa only [clip_eq_clipped] using perm_flatMap_clipped eps t polygons

/-- **Clipping treats every polygon on its own.** Two lists clipped together leave what each of them
leaves, and a list in another order leaves the same in another order. The loop over pending work
leaves what the recursion on the tree leaves. -/
theorem clip_distributes (eps : K) (t : Tree K) :
    (∀ P Q, t.clip eps (P ++ Q) ~ t.clip eps P ++ t.clip eps Q) ∧
    (∀ P Q, P ~ Q → t.clip eps P ~ t.clip eps Q) ∧
    ∀ P, t.clip eps P ~ t.outside eps P := by
  refine ⟨fun P Q => ?append, fun P Q hPQ => ?order, fun P => ?recursion⟩
  case append =>
    calc t.clip eps (P ++ Q)
      _ ~ (P ++ Q).flatMap fun q => t.clip eps [q] := perm_flatMap_clip eps t _
      _ = (P.flatMap fun q => t.clip eps [q]) ++ Q.flatMap fun q => t.clip eps [q] :=
        List.flatMap_append
      _ ~ t.clip eps P ++ t.clip eps Q :=
        (perm_flatMap_clip eps t P).symm.append (perm_flatMap_clip eps t Q).symm
  case order =>
    calc t.clip eps P
      _ ~ P.flatMap fun q => t.clip eps [q] := perm_flatMap_clip eps t P
      _ ~ Q.flatMap fun q => t.clip eps [q] := hPQ.flatMap_right _
      _ ~ t.clip eps Q := (perm_flatMap_clip eps t Q).symm
  case recursion =>
    have hloop := perm_clipLoop eps [(t, P)] []
    rwa [List.flatMap_singleton] at hloop

/-- An upright sail at a mast, which its lower edge passes on both sides. -/
def sailBetween (low high : Nat) : Polygon Double :=
  ⟨[⟨⟨-1, 0, .ofNat low⟩, ⟨0, -1, 0⟩⟩, ⟨⟨1, 0, .ofNat low⟩, ⟨0, -1, 0⟩⟩,
    ⟨⟨1, 0, .ofNat high⟩, ⟨0, -1, 0⟩⟩], ⟨⟨0, -1, 0⟩, 0⟩⟩

/-- All that is behind the mast, below the height of four and above it. -/
def lee : Tree Double :=
  .node (some ⟨⟨0, 0, 1⟩, .ofNat 4⟩) [] (.node (some ⟨⟨1, 0, 0⟩, 0⟩) [] .absent .absent)
    (.node (some ⟨⟨1, 0, 0⟩, 0⟩) [] .absent .absent)

/-- The heights of the corners. -/
def heights (polygons : List (Polygon Double)) : List (List (Option ℕ)) :=
  polygons.map fun q => q.vertices.map (·.pos.z.natural?)

/-- Each of three sails loses what is behind the mast. The lowest one comes first, wherever it was
in the list, and the other two keep their order. -/
theorem clip_distributes_sails : ∃ P Q, P = [sailBetween 6 8, sailBetween 0 2, sailBetween 4 6] ∧
    Q = [sailBetween 4 6, sailBetween 6 8, sailBetween 0 2] ∧ P ~ Q ∧
    heights (lee.clip Scalar.epsilon P) = [[some 0, some 0, some 2, some 1],
      [some 6, some 6, some 8, some 7], [some 4, some 4, some 6, some 5]] ∧
    heights (lee.clip Scalar.epsilon Q) = [[some 0, some 0, some 2, some 1],
      [some 4, some 4, some 6, some 5], [some 6, some 6, some 8, some 7]] ∧
    lee.clip Scalar.epsilon P ~ lee.clip Scalar.epsilon Q := by
  have hperm : [sailBetween 6 8, sailBetween 0 2, sailBetween 4 6] ~
      [sailBetween 4 6, sailBetween 6 8, sailBetween 0 2] :=
    @List.perm_append_comm _ [sailBetween 6 8, sailBetween 0 2] _
  refine ⟨_, _, rfl, rfl, hperm, ?_, ?_, (clip_distributes Scalar.epsilon lee).2.1 _ _ hperm⟩
  · rw [clip_eq_clipped]
    decide +kernel
  · rw [clip_eq_clipped]
    decide +kernel

end Tree

end Solids
