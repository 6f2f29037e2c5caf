import Solids.Proofs.Location
import Solids.Proofs.RoundShape
import Solids.Proofs.RoundTrip
/-!
# Solids.Proofs.Refusals

**What a modeller of meshes can still refuse when a recipe was read.** The reader has checked that
numbers are finite, that lengths are above zero, that combinations are of something and that there
are not too many levels. The modeller checks most of this again. It is never the one to find it.

Main definition: `Node.MayFail` — the refusals that are left for a node.

Main statement: `Recipe.mayFail_of_compile`.

The two checks of a number are not the same: the reader looks at the exponent of a double, and the
modeller compares it with the largest one. That is why some bits are looked at here.
-/

namespace Solids

open Float.Model (UnpackedFloat)
open Float.Model.UnpackedFloat

/-! ### Finite doubles -/

namespace Reading

/-- The digits and the exponent of a finite double are bounded. -/
theorem ofBits_bounds {bits : ℕ} {negative : Bool} {m : Magnitude}
    (h : ofBits bits = .finite negative m) : m.significand < 2 ^ 53 ∧ m.exponent ≤ 971 := by
  have hexponent : bits / 2 ^ 52 % 2 ^ 11 < 2 ^ 11 := Nat.mod_lt _ (by decide)
  have hfraction : bits % 2 ^ 52 < 2 ^ 52 := Nat.mod_lt _ (by decide)
  simp only [ofBits, Nat.pow_eq] at h
  split at h
  · split at h <;> cases h
  · split at h
    · cases h
      exact ⟨hfraction.trans (by decide), by simp⟩
    · cases h
      exact ⟨by dsimp only; omega, by dsimp only; omega⟩

/-- A double with digits is decoded to just these. -/
theorem unpack_eq_finite {x : Float} {negative : Bool} {m : Magnitude}
    (h : ofFloat x = .finite negative m) (hpos : 0 < m.significand) :
    ∃ sign, isNegative sign = negative ∧
      x.toModel.unpack = .finite sign m.significand m.exponent hpos := by
  rw [ofFloat_eq] at h
  generalize x.toModel.unpack = u at h
  cases u with
  | notANumber => cases h
  | infinity sign => cases h
  | zero sign =>
    cases h
    exact absurd hpos (lt_irrefl 0)
  | finite sign mantissa exponent hm =>
    cases h
    exact ⟨sign, rfl, rfl⟩

end Reading

/-- Exponents are compared first, and digits after that. -/
theorem compare_then_isLE {m₁ m₂ : ℕ} {e₁ e₂ : ℤ} (he : e₁ ≤ e₂) (hm : m₁ ≤ m₂) :
    ((compare e₁ e₂).then (compare m₁ m₂)).isLE = true := by
  rcases he.lt_or_eq with hlt | rfl
  · rw [compare_lt_iff_lt.mpr hlt]
    rfl
  · rw [compare_eq_iff_eq.mpr rfl]
    exact Nat.isLE_compare.mpr hm

/-- Every finite double is between two that have all digits and the largest exponent. -/
theorem le_and_le_of_isFinite {x top bottom : Float} (h : x.isFinite = true)
    (htop : Reading.ofFloat top = .finite false ⟨2 ^ 53 - 1, 971⟩)
    (hbottom : Reading.ofFloat bottom = .finite true ⟨2 ^ 53 - 1, 971⟩) :
    bottom ≤ x ∧ x ≤ top := by
  obtain ⟨up, hup, hlargest⟩ := Reading.unpack_eq_finite htop (by decide)
  obtain ⟨down, hdown, hsmallest⟩ := Reading.unpack_eq_finite hbottom (by decide)
  obtain rfl : up = .positive := by cases up with | positive => rfl | negative => cases hup
  obtain rfl : down = .negative := by cases down with | negative => rfl | positive => cases hdown
  have hle : ∀ a b : Float, a ≤ b ↔ a.toModel.unpack.le b.toModel.unpack = true :=
    fun a b => decide_eq_true_iff
  rw [hle, hle, hlargest, hsmallest]
  change x.toModel.unpack.isFinite = true at h
  have hbits := Reading.ofFloat_eq x
  generalize x.toModel.unpack = u at h hbits
  cases u with
  | notANumber => cases h
  | infinity sign => cases h
  | zero sign => exact ⟨rfl, rfl⟩
  | finite sign mantissa exponent hm =>
    obtain ⟨hdigits, hexponent⟩ := Reading.ofBits_bounds hbits
    have hdigits : mantissa ≤ 2 ^ 53 - 1 := Nat.le_sub_one_of_lt hdigits
    cases sign with
    | positive => exact ⟨rfl, compare_then_isLE hexponent hdigits⟩
    | negative =>
      refine ⟨?_, rfl⟩
      show (((compare (971 : ℤ) exponent).then (compare (2 ^ 53 - 1) mantissa)).swap).isLE = true
      rw [swap_compare_then]
      exact compare_then_isLE hexponent hdigits

theorem Scalar.isFinite_of_le {K : Type} [Scalar K] {most a : K} (h : largest? = some most)
    (hlower : -most ≤ a) (hupper : a ≤ most) : isFinite a = true := by
  rw [isFinite, h]
  simp [hlower, hupper]

namespace Double

/-- The largest double has all digits and the largest exponent. -/
theorem exists_largest_eq : ∃ most : Double, (Scalar.largest? : Option Double) = some most ∧
    ∃ (top : Float) (htop : top.isNaN = false) (hbottom : (-top).isNaN = false),
      most = .number top htop ∧ -most = .number (-top) hbottom ∧
      Reading.ofFloat top = .finite false ⟨2 ^ 53 - 1, 971⟩ ∧
      Reading.ofFloat (-top) = .finite true ⟨2 ^ 53 - 1, 971⟩ := by
  have hreading : Reading.ofFloat 1.7976931348623157e308 = .finite false ⟨2 ^ 53 - 1, 971⟩ := by
    decide +kernel
  have hnegative : Reading.ofFloat (-1.7976931348623157e308) = .finite true ⟨2 ^ 53 - 1, 971⟩ := by
    decide +kernel
  have htop : (1.7976931348623157e308 : Float).isNaN = false := by decide +kernel
  have hbottom : (-1.7976931348623157e308 : Float).isNaN = false := by decide +kernel
  have hlargest : (Scalar.largest? : Option Double) = some (ofFloat 1.7976931348623157e308) := rfl
  refine ⟨_, hlargest, ?_⟩
  clear hlargest
  -- from here on the digits of the number are of no account
  generalize (1.7976931348623157e308 : Float) = top at *
  have hofFloat : ofFloat top = .number top htop := dif_pos htop
  refine ⟨top, htop, hbottom, hofFloat, ?_, hreading, hnegative⟩
  rw [hofFloat]
  exact dif_pos hbottom

/-- A double that is finite is so for geometry, too. -/
theorem scalar_isFinite {x : Double} (h : x.isFinite = true) : Scalar.isFinite x = true := by
  cases x with
  | nan negative => cases h
  | number a ha =>
    obtain ⟨most, hmost, top, htop, hbottom, rfl, hnegative, hreading, hreading'⟩ :=
      exists_largest_eq
    obtain ⟨hlower, hupper⟩ := le_and_le_of_isFinite (x := a) h hreading hreading'
    refine Scalar.isFinite_of_le hmost ?_ hupper
    rw [hnegative]
    exact hlower

end Double

/-! ### Shapes -/

namespace Mesh

variable {values : Vec3 Double} {value : Double} {center : Option (Vec3 Double)}

theorem requireFinite_eq_ok (parameter : Parameter)
    (h : ∀ x ∈ values.toList, x.isFinite = true) : requireFinite parameter values = .ok () := by
  have hfinite : values.isFinite = true := by
    simp only [Vec3.toList, List.forall_mem_cons] at h
    simp [Vec3.isFinite, Vec3.all, Double.scalar_isFinite, h]
  rw [requireFinite, if_pos hfinite]

theorem requirePositive_eq_ok (parameter : Parameter) (hfinite : value.isFinite = true)
    (hpos : 0 < value) : requirePositive parameter value = .ok () := by
  simp [requirePositive, Double.scalar_isFinite hfinite, hpos]

theorem resolveCenter_eq_ok (h : ∀ x ∈ center.elim [] Vec3.toList, x.isFinite = true) :
    resolveCenter center = .ok (center.getD 0) := by
  have hfinite : ∀ x ∈ (center.getD 0).toList, x.isFinite = true := by
    cases center with
    | none =>
      have hzero : (0 : Double).isFinite = true := by decide +kernel
      simp [Vec3.toList, hzero]
    | some c => exact h
  rw [resolveCenter, requireFinite_eq_ok .center hfinite]
  rfl

end Mesh

/-- The number of faces that a shape has with so many segments. -/
def Shape.faceCount {K : Type} : Shape K → ℕ → ℕ
  | .cuboid _ _, _ => 6
  | .sphere _ _ _, n => n * max (n / 2) 2
  | .cylinder _ _ _ _, n => n * 3

/-- The refusals that are left for a node that was read. -/
inductive Node.MayFail : Node Double → KernelError Double → Prop where
  /-- An edge of a box has a negative length. -/
  | negativeSize {size : Vec3 Double} {center : Option (Vec3 Double)} :
      (∃ a ∈ size.toList, a < 0) → MayFail (.shape (.cuboid size center)) (.negativeSize size)
  /-- A round shape asks for one, two or three segments. -/
  | tooFewSegments {s : Shape Double} {n : UInt32} : s.segments? = some n →
      1 ≤ n.toNat → n.toNat ≤ 3 → MayFail (.shape s) (.tooFewSegments n)
  /-- A round shape asks for so many segments that it would have too many faces. -/
  | tooManySegments {s : Shape Double} {n : UInt32} : s.segments? = some n →
      2 ^ 20 < s.faceCount n.toNat → MayFail (.shape s) (.tooManySegments n)
  /-- A motion flattens space. -/
  | singularTransform (motion : Motion Double) (child : Node Double) :
      MayFail (.move motion child) .singularTransform
  /-- A motion takes a corner out of the range of numbers. -/
  | nonFinite (motion : Motion Double) (child : Node Double) :
      MayFail (.move motion child) .nonFinite

namespace Mesh

variable {e : KernelError Double} {segments : Option UInt32} {n : UInt32}

theorem resolveSegments_eq_error_iff :
    (resolveSegments segments : Except (KernelError Double) UInt32) = .error e ↔
      ∃ n, segments = some n ∧ n.toNat ≤ 3 ∧ e = .tooFewSegments n := by
  cases segments with
  | none => exact iff_of_false (by simp [resolveSegments, defaultSegments, fewestSegments]) nofun
  | some n =>
    have hfewest : n < fewestSegments ↔ n.toNat ≤ 3 :=
      UInt32.lt_iff_toNat_lt.trans (by simp [fewestSegments]; omega)
    simp only [resolveSegments, Option.getD_some, hfewest, Option.some.injEq, exists_eq_left']
    split <;> simp_all [eq_comm]

theorem requireCount_eq_error_iff {count : ℕ} :
    requireCount n count = .error e ↔ 2 ^ 20 < count ∧ e = .tooManySegments n := by
  have hlimit : polygonLimit = 2 ^ 20 := rfl
  rw [requireCount, hlimit]
  split
  · next hle => exact iff_of_false (by simp) fun h => h.1.not_ge hle
  · next hle =>
    rw [not_le] at hle
    simp only [Except.error.injEq, hle, true_and, eq_comm]

end Mesh

namespace Node

variable {s : Shape Double} {e : KernelError Double}

theorem any_lt_zero_iff {size : Vec3 Double} :
    (size.any fun a => decide (a < 0)) = true ↔ ∃ a ∈ size.toList, a < 0 := by
  simp [Vec3.any, Vec3.toList, or_assoc]

theorem mayFail_cuboid_iff {size : Vec3 Double} {center : Option (Vec3 Double)} :
    (Node.shape (.cuboid size center)).MayFail e ↔
      (∃ a ∈ size.toList, a < 0) ∧ e = .negativeSize size := by
  constructor
  · intro h
    cases h with
    | negativeSize hnegative => exact ⟨hnegative, rfl⟩
    | tooFewSegments hsome => cases hsome
    | tooManySegments hsome => cases hsome
  · intro ⟨hnegative, he⟩
    exact he ▸ .negativeSize hnegative

/-- What is left for a ball or a cylinder is about its segments. -/
theorem mayFail_round_iff (hround : s.service ≠ .cuboid)
    (h : (Node.shape s).IsSound) : (Node.shape s).MayFail e ↔
      ∃ n, s.segments? = some n ∧ (n.toNat ≤ 3 ∧ e = .tooFewSegments n ∨
        2 ^ 20 < s.faceCount n.toNat ∧ e = .tooManySegments n) := by
  constructor
  · intro h
    cases h with
    | negativeSize => exact absurd rfl hround
    | @tooFewSegments _ n hn _ hfew => exact ⟨n, hn, .inl ⟨hfew, rfl⟩⟩
    | @tooManySegments _ n hn hmany => exact ⟨n, hn, .inr ⟨hmany, rfl⟩⟩
  · intro ⟨n, hn, hcheck⟩
    rcases hcheck with ⟨hfew, he⟩ | ⟨hmany, he⟩
    · exact he ▸ .tooFewSegments hn (h.segments n hn) hfew
    · exact he ▸ .tooManySegments hn hmany

/-- The checks for segments, which are the last ones for a round shape. They are about what the node
asks for: the number that is taken otherwise passes them. -/
theorem checkRound_eq_error_iff {segments : Option UInt32} {next : UInt32 → Mesh Double}
    (faces : ℕ → ℕ) (hdefault : faces 32 ≤ 2 ^ 20) (hfew : ∀ n ≤ 3, faces n ≤ 2 ^ 20) :
    (Mesh.resolveSegments segments >>= fun n => Mesh.requireCount n (faces n.toNat) >>= fun _ =>
        pure (next n) : Except (KernelError Double) (Mesh Double)) = .error e ↔
      ∃ n, segments = some n ∧ (n.toNat ≤ 3 ∧ e = .tooFewSegments n ∨
        2 ^ 20 < faces n.toNat ∧ e = .tooManySegments n) := by
  have hnext (n : UInt32) :
      (pure (next n) : Except (KernelError Double) (Mesh Double)) ≠ .error e := nofun
  simp only [bind_eq_error_iff, Mesh.resolveSegments_eq_error_iff, Mesh.resolveSegments_ok_iff,
    Mesh.requireCount_eq_error_iff, hnext, and_false, exists_false, or_false]
  cases segments with
  | none =>
    simp only [Option.getD_none, reduceCtorEq, false_and, exists_false, false_or, iff_false]
    intro ⟨n, ⟨hn, _⟩, hmany, _⟩
    subst hn
    exact hdefault.not_gt hmany
  | some n =>
    simp only [Option.some.injEq, Option.getD_some, exists_eq_left', and_assoc, exists_eq_left]
    refine or_congr_right ⟨And.right, fun hmany => ⟨?_, hmany⟩⟩
    by_contra hle
    exact (hfew _ (not_lt.mp hle)).not_gt hmany.1

/-- A shape that was read is refused for what is left for it, and for nothing else. -/
theorem ofShape_eq_error_iff (h : (Node.shape s).IsSound) :
    Mesh.ofShape s = .error e ↔ (Node.shape s).MayFail e := by
  have hfinite := h.finite
  have hpositive := h.positive
  cases s with
  | cuboid size center =>
    simp only [numbers, List.forall_mem_append] at hfinite
    obtain ⟨hsize, hcenter⟩ := hfinite
    rw [mayFail_cuboid_iff, ← any_lt_zero_iff, Mesh.ofShape, Mesh.cuboid,
      Mesh.requireFinite_eq_ok .size hsize, Mesh.resolveCenter_eq_ok hcenter]
    by_cases hnegative : (size.any fun a => decide (a < 0)) = true
    · simp [hnegative, bind, Except.bind, eq_comm]
    · by_cases hzero : size.any Scalar.isZero = true <;>
        simp [hnegative, hzero, bind, Except.bind, pure, Except.pure]
  | sphere radius center segments =>
    simp only [numbers, List.forall_mem_cons] at hfinite
    simp only [lengths, List.forall_mem_singleton] at hpositive
    obtain ⟨hradius, hcenter⟩ := hfinite
    rw [mayFail_round_iff (by simp [Shape.service]) h, Mesh.ofShape, Mesh.sphere,
      Mesh.requirePositive_eq_ok .radius hradius hpositive, Mesh.resolveCenter_eq_ok hcenter]
    exact checkRound_eq_error_iff (fun n => n * Mesh.sphereLayers n) (by decide) (by decide)
  | cylinder height radius center segments =>
    simp only [numbers, List.forall_mem_cons] at hfinite
    simp only [lengths, List.forall_mem_cons] at hpositive
    obtain ⟨hheight, hradius, hcenter⟩ := hfinite
    rw [mayFail_round_iff (by simp [Shape.service]) h, Mesh.ofShape, Mesh.cylinder,
      Mesh.requirePositive_eq_ok .height hheight hpositive.1,
      Mesh.requirePositive_eq_ok .radius hradius hpositive.2.1, Mesh.resolveCenter_eq_ok hcenter]
    exact checkRound_eq_error_iff (fun n => n * 3) (by decide) (by decide)

end Node

/-! ### Motions and combinations -/

theorem Mesh.transform_eq_error {m : Mesh Double} {matrix : Mat4 Double} {e : KernelError Double}
    (h : m.transform matrix = .error e) : e = .singularTransform ∨ e = .nonFinite := by
  unfold Mesh.transform at h
  dsimp only at h
  split at h
  · exact .inl (Except.error.inj h).symm
  · split at h
    · exact .inl (Except.error.inj h).symm
    · split at h
      · cases h
      · exact .inr (Except.error.inj h).symm

namespace Kernel

variable {settings : Settings Double} {n : Node Double} {operands : List (Mesh Double)}
  {operation : Operation Double (Mesh Double)} {s : KernelError Double}

theorem combineMeshes_ne_error (combination : Combination) (hoperands : operands ≠ []) :
    (combineMeshes settings combination operands).run ≠ some (.error s) := by
  cases operands with
  | nil => exact absurd rfl hoperands
  | cons first rest =>
    intro h
    obtain ⟨m, -, hm⟩ := Option.map_eq_some_iff.mp h
    cases hm

/-- What one node asks for is refused for a reason that is left for it. -/
theorem mayFail_of_perform (hn : n.IsSound) (hasks : n.Asks operands operation)
    (hlength : operands.length = n.children.length)
    (h : ((mesh settings).perform operation).run = some (.error s)) : n.MayFail s := by
  have moved {motion motion' : Motion Double} {child : Node Double} {g : Mesh Double}
      (h : some (g.move motion') = some (.error s)) : (Node.move motion child).MayFail s := by
    rcases Mesh.transform_eq_error (Option.some.inj h) with he | he
    · exact he ▸ .singularTransform motion child
    · exact he ▸ .nonFinite motion child
  cases hasks with
  | shape shape => exact (Node.ofShape_eq_error_iff hn).mp (Option.some.inj h)
  | combine combination children operands =>
    refine absurd h (combineMeshes_ne_error combination ?_)
    intro hnil
    subst hnil
    have hchildren : children = [] := List.length_eq_zero_iff.mp hlength.symm
    exact hn.children combination (by rw [hchildren])
  | translate offset child g => exact moved h
  | rotate angles child g => exact moved h
  | scale factors child g => exact moved h

end Kernel

/-! ### Trees -/

section Runs

variable {ε α β : Type} {x : ExceptT ε Option α} {f : α → ExceptT ε Option β} {e : ε}

theorem run_bind_eq_error_iff : (x >>= f).run = some (.error e) ↔
    x.run = some (.error e) ∨ ∃ a, x.run = some (.ok a) ∧ (f a).run = some (.error e) := by
  rw [ExceptT.run_bind]
  cases x.run with
  | none => simp
  | some out => cases out <;> simp

theorem run_bind_eq_ok_iff {b : β} : (x >>= f).run = some (.ok b) ↔
    ∃ a, x.run = some (.ok a) ∧ (f a).run = some (.ok b) := by
  rw [ExceptT.run_bind]
  cases x.run with
  | none => simp
  | some out => cases out <;> simp

end Runs

namespace Kernel

variable {settings : Settings Double}

theorem run_performAt_eq_error {k : Kernel Option Double (Mesh Double)} {path : Path}
    {operation : Operation Double (Mesh Double)} {error : CompileError Double}
    (h : (k.performAt path operation).run = some (.error error)) :
    (k.perform operation).run = some (.error error.source) ∧ error.path = path := by
  obtain ⟨answer, hanswer, herror⟩ := Option.map_eq_some_iff.mp h
  cases answer with
  | ok g => cases herror
  | error s =>
    cases herror
    exact ⟨hanswer, rfl⟩

theorem length_of_compileItems {k : Kernel Option Double (Mesh Double)} {path : Path}
    {ns : List (Node Double)} {i : ℕ} {gs : List (Mesh Double)}
    (h : (k.compileItems path i ns).run = some (.ok gs)) : gs.length = ns.length := by
  induction ns generalizing i gs with
  | nil =>
    cases h
    rfl
  | cons n rest ih =>
    rw [compileItems, run_bind_eq_ok_iff] at h
    obtain ⟨g, -, h⟩ := h
    obtain ⟨others, hothers, h⟩ := run_bind_eq_ok_iff.mp h
    cases h
    rw [List.length_cons, List.length_cons, ih hothers]

/-- If the call for a node is refused then at the place of the node, and for a reason that is left
for it. -/
theorem exists_mayFail_of_performAt {path : Path} {n : Node Double}
    {operands : List (Mesh Double)} {operation : Operation Double (Mesh Double)}
    {error : CompileError Double} (hsound : ∀ e ∈ n.preorder path, e.1.IsSound)
    (hasks : n.Asks operands operation) (hlength : operands.length = n.children.length)
    (h : ((mesh settings).performAt path operation).run = some (.error error)) :
    ∃ m, (m, error.path) ∈ n.preorder path ∧ m.MayFail error.source := by
  obtain ⟨hrefused, hpath⟩ := run_performAt_eq_error h
  have hmem : (n, path) ∈ n.preorder path := by cases n <;> exact List.mem_cons_self
  rw [hpath]
  exact ⟨n, hmem, mayFail_of_perform (hsound _ hmem) hasks hlength hrefused⟩

mutual

/-- A refusal is about one of the nodes, and for a reason that is left for it. -/
theorem exists_mayFail_of_compileNode (path : Path) : (n : Node Double) →
    (∀ e ∈ n.preorder path, e.1.IsSound) → ∀ error : CompileError Double,
    ((mesh settings).compileNode path n).run = some (.error error) →
    ∃ m, (m, error.path) ∈ n.preorder path ∧ m.MayFail error.source
  | .shape s, hsound, error, h => exists_mayFail_of_performAt hsound (.shape s) rfl h
  | .combine combination children, hsound, error, h => by
    rw [compileNode, run_bind_eq_error_iff] at h
    rcases h with h | ⟨operands, hoperands, h⟩
    · obtain ⟨m, hm, hfail⟩ := exists_mayFail_of_compileItems _ 0 children
        (fun e he => hsound e (.tail _ he)) error h
      exact ⟨m, .tail _ hm, hfail⟩
    · exact exists_mayFail_of_performAt hsound (.combine combination children operands)
        (length_of_compileItems hoperands) h
  | .move motion child, hsound, error, h => by
    rw [compileNode, run_bind_eq_error_iff] at h
    rcases h with h | ⟨operand, -, h⟩
    · obtain ⟨m, hm, hfail⟩ := exists_mayFail_of_compileNode _ child
        (fun e he => hsound e (.tail _ he)) error h
      exact ⟨m, .tail _ hm, hfail⟩
    · exact exists_mayFail_of_performAt hsound (.of_motion motion child operand) rfl h

theorem exists_mayFail_of_compileItems (path : Path) (i : ℕ) : (ns : List (Node Double)) →
    (∀ e ∈ Node.preorderOfItems path i ns, e.1.IsSound) → ∀ error : CompileError Double,
    ((mesh settings).compileItems path i ns).run = some (.error error) →
    ∃ m, (m, error.path) ∈ Node.preorderOfItems path i ns ∧ m.MayFail error.source
  | [], _, error, h => nomatch h
  | n :: rest, hsound, error, h => by
    rw [compileItems, run_bind_eq_error_iff] at h
    rcases h with h | ⟨g, -, h⟩
    · obtain ⟨m, hm, hfail⟩ := exists_mayFail_of_compileNode _ n
        (fun e he => hsound e (List.mem_append_left _ he)) error h
      exact ⟨m, List.mem_append_left _ hm, hfail⟩
    · rcases run_bind_eq_error_iff.mp h with h | ⟨gs, -, h⟩
      · obtain ⟨m, hm, hfail⟩ := exists_mayFail_of_compileItems path (i + 1) rest
          (fun e he => hsound e (List.mem_append_right _ he)) error h
        exact ⟨m, List.mem_append_right _ hm, hfail⟩
      · cases h

end

end Kernel

/-! ### Recipes -/

namespace Recipe

variable {v : Json} {r : Recipe Double}

/-- No two nodes of a tree are at the same place. -/
theorem eq_of_mem_preorder {n m : Node Double} {path : Path}
    (hn : (n, path) ∈ r.root.preorder .root) (hm : (m, path) ∈ r.root.preorder .root) : n = m := by
  have hperm := Node.perm_preorder .root r.root
  have hnodup := Node.nodup_postorder .root r.root
  rw [hperm.mem_iff] at hn hm
  exact (Prod.mk.inj (List.inj_on_of_nodup_map hnodup hn hm rfl)).1

/-- If lengths are taken as they are written then the modeller is only asked for the nodes and for
a measurement, which it does not refuse. -/
theorem run_construct_eq_error {settings : Settings Double} {options : CompileOptions}
    (hunits : options.units = .asWritten) {error : CompileError Double}
    (h : (r.construct (Kernel.mesh settings) options).run = some (.error error)) :
    ((Kernel.mesh settings).compileNode .root r.root).run = some (.error error) := by
  have hscale : r.unitScale? options = none := by simp [unitScale?, hunits]
  rw [construct_eq, run_bind_eq_error_iff] at h
  rcases h with h | ⟨made, -, h⟩
  · exact h
  · rw [convert, hscale] at h
    cases h

/-- **What can still fail after a recipe was read.** If a recipe that a document is cannot be made
into a mesh, its lengths being taken as they are written, then it is not for too many levels. If
the modeller refuses then the place it reports is that of one node, and the reason is one of those
that are left for this node. It is never that a combination is of nothing, nor that a length is not
above zero or a number is not finite. -/
theorem mayFail_of_compile (hread : ofJson v = .ok r) (settings : Settings Double)
    {options : CompileOptions} (hunits : options.units = .asWritten) {e : RecipeError Double}
    (h : (r.compile (Kernel.mesh settings) options).run = some (.error e)) :
    (∀ depth limit, e ≠ .complexity (.tooDeep depth limit)) ∧
    (∀ path source, e = .compile ⟨path, source⟩ →
      (∃ m, (m, path) ∈ r.root.preorder .root) ∧
      ∀ m, (m, path) ∈ r.root.preorder .root → m.MayFail source) ∧
    (∀ path service, e ≠ .compile ⟨path, .noOperands service⟩) ∧
    (∀ path parameter value, e ≠ .compile ⟨path, .notPositive parameter value⟩) ∧
    ∀ path parameter values, e ≠ .compile ⟨path, .notFinite parameter values⟩ := by
  have hr := isWellFormed_of_ofJson hread
  have hfails (path : Path) (source : KernelError Double) (he : e = .compile ⟨path, source⟩) :
      ∃ m, (m, path) ∈ r.root.preorder .root ∧ m.MayFail source := by
    subst he
    rcases run_compile_eq_some h with ⟨limit, -, he⟩ | ⟨out, hout, he⟩
    · cases he
    · cases out with
      | ok made => cases he
      | error error =>
        cases he
        exact Kernel.exists_mayFail_of_compileNode .root r.root hr.nodes _
          (run_construct_eq_error hunits hout)
  refine ⟨?depth, ?refused, ?_, ?_, ?_⟩
  case depth =>
    intro depth limit he
    subst he
    rcases run_compile_eq_some h with ⟨limit', hbreaks, he⟩ | ⟨out, -, he⟩
    · cases he
      cases hbreaks with
      | levels _ hdeep => exact hdeep.not_ge hr.levels
    · cases out <;> cases he
  case refused =>
    intro path source he
    obtain ⟨m, hm, hfail⟩ := hfails path source he
    refine ⟨⟨m, hm⟩, ?_⟩
    intro m' hm'
    exact eq_of_mem_preorder hm hm' ▸ hfail
  -- for each of the other refusals there is no node for which it is left
  · intro path service he
    obtain ⟨m, -, hfail⟩ := hfails path _ he
    cases hfail
  · intro path parameter value he
    obtain ⟨m, -, hfail⟩ := hfails path _ he
    cases hfail
  · intro path parameter values he
    obtain ⟨m, -, hfail⟩ := hfails path _ he
    cases hfail

/-- A ball of three segments is moved and then has a box taken from it. The reader has nothing
against it. -/
theorem mayFail_of_compile_ball : ∃ (v : Json) (r : Recipe Double) (path : Path)
    (ball : Node Double), ofJson v = .ok r ∧ CompileOptions.units {} = .asWritten ∧
    path = ((Path.root.key "children").index 0).key "child" ∧
    ball = .shape (.sphere (Number.natural 1).toDouble none (some 3)) ∧
    (r.compile (Kernel.mesh Settings.default) {}).run =
      some (.error (.compile ⟨path, .tooFewSegments 3⟩)) ∧
    (ball, path) ∈ r.root.preorder .root ∧ ball.MayFail (.tooFewSegments 3) := by
  set one : Double := (Number.natural 1).toDouble
  set ball : Node Double := .shape (.sphere one none (some 3)) with hball
  set r : Recipe Double := Recipe.mk 1 .mm none (.combine .subtract
    [.move (.translate ⟨one, one, one⟩) ball, .shape (.cuboid ⟨one, one, one⟩ none)]) with hr
  set path : Path := ((Path.root.key "children").index 0).key "child"
  set v : Json := .object [("version", .ofNat 1), ("root", .object [("type", .string "subtract"),
    ("children", .array [
      .object [("type", .string "translate"), ("offset", .array [.ofNat 1, .ofNat 1, .ofNat 1]),
        ("child", .object [("type", .string "sphere"), ("radius", .ofNat 1),
          ("segments", .ofNat 3)])],
      .object [("type", .string "cuboid"), ("size", .array [.ofNat 1, .ofNat 1, .ofNat 1])]])])]
  have hsphere : Json.IsNode (.object [("type", .string "sphere"), ("radius", .ofNat 1),
      ("segments", .ofNat 3)]) ball :=
    .shape (.sphere rfl ⟨_, rfl, .number (by decide)⟩ rfl ⟨_, rfl, .number (by decide) (by decide)⟩)
  have hrecipe : v.IsRecipe r := by
    refine ⟨⟨_, rfl, by decide⟩, rfl, ⟨none, rfl, rfl⟩, rfl, ⟨_, rfl, ?_⟩, by decide⟩
    refine .combine (.subtract rfl) rfl (by simp)
      (.cons (.move ?_ rfl hsphere) (.cons (.shape ?_) .nil))
    · exact .translate rfl ⟨_, rfl, .numbers _ _ _⟩
    · exact .cuboid rfl ⟨_, rfl, .numbers _ _ _⟩ rfl
  have hread : ofJson v = .ok r := ofJson_of_isRecipe hrecipe
  have hfew : ball.MayFail (.tooFewSegments 3) := .tooFewSegments rfl (by decide) (by decide)
  have hsound : ball.IsSound :=
    (isWellFormed_of_ofJson hread).nodes (ball, path) (.tail _ (.tail _ (.head _)))
  have hrefused : Mesh.ofShape (.sphere one none (some 3)) = .error (.tooFewSegments 3) :=
    (Node.ofShape_eq_error_iff hsound).mpr hfew
  have hlimits : r.checkLimits {} = .ok 4 := by
    simp only [checkLimits, checkSegments, Node.count_eq_size, Node.depth_eq_levels]
    rfl
  have hmade : ((Kernel.mesh Settings.default).compileNode .root r.root).run =
      some (.error ⟨path, .tooFewSegments 3⟩) := by
    simp [hr, hball, Kernel.compileNode, Kernel.compileItems, Kernel.performAt, Kernel.placed,
      Kernel.mesh, hrefused, path, ExceptT.run_bind, Except.mapError]
  have hrun : (r.compile (Kernel.mesh Settings.default) {}).run =
      some (.error (.compile ⟨path, .tooFewSegments 3⟩)) := by
    rw [run_compile_of_ok _ hlimits, construct_eq, run_bind_eq_error_iff.mpr (.inl hmade)]
    rfl
  obtain ⟨-, hplaces, -⟩ := mayFail_of_compile hread Settings.default rfl hrun
  obtain ⟨-, hfails⟩ := hplaces path (.tooFewSegments 3) rfl
  have hmem : (ball, path) ∈ r.root.preorder .root := .tail _ (.tail _ (.head _))
  exact ⟨v, r, path, ball, hread, rfl, rfl, rfl, hrun, hmem, hfails ball hmem⟩

end Recipe

end Solids
